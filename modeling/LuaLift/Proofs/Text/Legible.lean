import LuaLift.Text.Quoted
import Mathlib.Data.List.Basic

namespace LuaLift.Text

def FirstIs (p : Char → Bool) (r : List Char) : Prop := ∀ c ∈ r.head?, p c = true

@[simp] theorem firstIs_nil {p : Char → Bool} : FirstIs p [] := nofun

@[simp] theorem firstIs_cons {p : Char → Bool} {c : Char} {r : List Char} : FirstIs p (c :: r) ↔ p c = true := by
  simp [FirstIs]

theorem FirstIs.mono {p q : Char → Bool} {r : List Char} (h : FirstIs p r) (hpq : ∀ c, p c = true → q c = true) :
    FirstIs q r := fun c hc => hpq c (h c hc)

/-- What is written for `a` tells it from the others, and from the text behind it. -/
def Legible {α : Type} (write : α → List Char) (follows : List Char → Prop) (among : α → Prop) (a : α) : Prop :=
  ∀ ⦃b : α⦄ ⦃r s : List Char⦄, among b → follows r → follows s → write a ++ r = write b ++ s → a = b ∧ r = s

def inName (c : Char) : Bool := c.isAlphanum || c == '_'

theorem isIdentifier_iff {s : String} : isIdentifier s = true ↔
    ∃ c cs, s.toList = c :: cs ∧ (c.isAlpha || c == '_') = true ∧ ∀ d ∈ s.toList, inName d = true := by
  unfold isIdentifier
  cases s.toList with
  | nil => simp
  | cons c cs =>
    simp only [Bool.and_eq_true, List.all_eq_true, List.cons.injEq, List.forall_mem_cons]
    constructor
    · rintro ⟨hc, hcs⟩
      refine ⟨c, cs, ⟨rfl, rfl⟩, hc, ?_, hcs⟩
      simp only [inName, Char.isAlphanum]
      grind
    · rintro ⟨c, cs, ⟨rfl, rfl⟩, hc, -, hcs⟩
      exact ⟨hc, hcs⟩

theorem append_inj_of_firstIs {p : Char → Bool} {l l' r r' : List Char} (hl : ∀ c ∈ l, p c = true)
    (hl' : ∀ c ∈ l', p c = true) (hr : FirstIs (fun c => !p c) r) (hr' : FirstIs (fun c => !p c) r')
    (h : l ++ r = l' ++ r') : l = l' ∧ r = r' := by
  have takes {l r : List Char} (hl : ∀ c ∈ l, p c = true) (hr : FirstIs (fun c => !p c) r) :
      (l ++ r).takeWhile p = l := by
    rw [List.takeWhile_append_of_pos hl]
    cases r with
    | nil => simp
    | cons c r =>
      have : p c = false := by simpa using hr
      simp [this]
  have hll : l = l' := (takes hl hr).symm.trans ((congrArg _ h).trans (takes hl' hr'))
  subst hll
  exact ⟨rfl, List.append_cancel_left h⟩

theorem legible_name {s : String} (hs : isIdentifier s = true) :
    Legible String.toList (FirstIs fun c => !inName c) (isIdentifier · = true) s := by
  intro s' r r' hs' hr hr' h
  obtain ⟨-, -, -, -, hall⟩ := isIdentifier_iff.1 hs
  obtain ⟨-, -, -, -, hall'⟩ := isIdentifier_iff.1 hs'
  exact (append_inj_of_firstIs hall hall' hr hr' h).imp_left String.toList_inj.1

theorem name_append_ne_cons {s : String} (hs : isIdentifier s = true) {c : Char}
    (hc : (c.isAlpha || c == '_') = false) (r r' : List Char) : s.toList ++ r ≠ c :: r' := by
  obtain ⟨d, ds, hd, halpha, -⟩ := isIdentifier_iff.1 hs
  intro h
  rw [hd, List.cons_append, List.cons.injEq] at h
  rw [h.1, hc] at halpha
  cases halpha

theorem digitChar_inj {m n : Nat} (hm : m < 16) (hn : n < 16) (h : Nat.digitChar m = Nat.digitChar n) : m = n := by
  have hall : ∀ m : Fin 16, ∀ n : Fin 16, Nat.digitChar m = Nat.digitChar n → m = n := by decide
  exact congrArg Fin.val (hall ⟨m, hm⟩ ⟨n, hn⟩ h)

theorem toDigits_sixteen_inj {m n : Nat} (h : Nat.toDigits 16 m = Nat.toDigits 16 n) : m = n := by
  induction m using Nat.strongRecOn generalizing n with
  | _ m ih =>
    rw [Nat.toDigits_eq_if (by decide), Nat.toDigits_eq_if (n := n) (by decide)] at h
    have hne (k : Nat) (d : Char) : [d] ≠ Nat.toDigits 16 (k / 16) ++ [(k % 16).digitChar] := fun he => by
      have hlen := congrArg List.length he
      have hpos := Nat.length_toDigits_pos (b := 16) (n := k / 16)
      rw [List.length_append, List.length_singleton, List.length_singleton] at hlen
      omega
    split at h <;> split at h
    · next hm hn => exact digitChar_inj hm hn (by simpa using h)
    · exact absurd h (hne n _)
    · exact absurd h.symm (hne m _)
    · obtain ⟨hinit, hlast⟩ := List.append_inj' h rfl
      have hdiv := ih (m / 16) (by omega) hinit
      have hmod := digitChar_inj (Nat.mod_lt m (by decide)) (Nat.mod_lt n (by decide)) (by simpa using hlast)
      omega

theorem ne_brace_of_mem_toDigits {c : Char} {n : Nat} (h : c ∈ Nat.toDigits 16 n) : c ≠ '\x7d' := by
  induction n using Nat.strongRecOn with
  | _ n ih =>
    have hdigit (k : Nat) : k.digitChar ≠ '\x7d' := Nat.digitChar_ne '\x7d' (by decide)
    rw [Nat.toDigits_eq_if (by decide)] at h
    split at h
    · exact List.mem_singleton.1 h ▸ hdigit n
    · rcases List.mem_append.1 h with h | h
      · exact ih (n / 16) (by omega) h
      · exact List.mem_singleton.1 h ▸ hdigit _

def escaped? : Char → Option Char
  | '0' => some '\x00'
  | 't' => some '\t'
  | 'n' => some '\n'
  | 'r' => some '\r'
  | '\\' => some '\\'
  | '"' => some '"'
  | _ => none

theorem escape_cases (c : Char) : (∃ x, escape c = ['\\', x] ∧ escaped? x = some c) ∨
    escape c = codePoint c ∨ escape c = [c] ∧ c ≠ '\\' ∧ c ≠ '"' := by
  unfold escape
  split
  iterate 6 exact .inl ⟨_, rfl, rfl⟩
  split
  · exact .inr (.inl rfl)
  · next hslash hquote _ => exact .inr (.inr ⟨rfl, hslash, hquote⟩)

theorem codePoint_append (c : Char) (r : List Char) :
    codePoint c ++ r = '\\' :: 'u' :: '\x7b' :: (Nat.toDigits 16 c.toNat ++ '\x7d' :: r) := by
  simp [codePoint]

theorem escape_append_inj {c d : Char} {r s : List Char} (h : escape c ++ r = escape d ++ s) : c = d ∧ r = s := by
  rcases escape_cases c with ⟨x, hc, hx⟩ | hc | ⟨hc, hslash, -⟩ <;>
    rcases escape_cases d with ⟨y, hd, hy⟩ | hd | ⟨hd, hslash', -⟩ <;>
    simp only [hc, hd, codePoint_append, List.cons_append, List.nil_append, List.cons.injEq, true_and] at h
  · obtain ⟨rfl, rfl⟩ := h
    exact ⟨Option.some.inj (hx.symm.trans hy), rfl⟩
  · rw [h.1] at hx
    cases hx
  · exact absurd h.1.symm hslash'
  · rw [← h.1] at hy
    cases hy
  · have digits (n : Nat) : ∀ x ∈ Nat.toDigits 16 n, (x != '\x7d') = true := fun x hx =>
      bne_iff_ne.2 (ne_brace_of_mem_toDigits hx)
    obtain ⟨hcode, hrest⟩ := append_inj_of_firstIs (digits _) (digits _) (by simp) (by simp) h
    exact ⟨Char.toNat_inj.1 (toDigits_sixteen_inj hcode), (List.cons.inj hrest).2⟩
  · exact absurd h.1.symm hslash'
  · exact absurd h.1 hslash
  · exact absurd h.1 hslash
  · exact h

theorem escape_eq_cons (c : Char) : ∃ x xs, escape c = x :: xs ∧ x ≠ '"' := by
  rcases escape_cases c with ⟨x, hc, -⟩ | hc | ⟨hc, -, hquote⟩
  · exact ⟨_, _, hc, by decide⟩
  · exact ⟨_, _, hc, by decide⟩
  · exact ⟨_, _, hc, hquote⟩

theorem flatMap_escape_inj {l l' r r' : List Char} (h : l.flatMap escape ++ '"' :: r = l'.flatMap escape ++ '"' :: r') :
    l = l' ∧ r = r' := by
  induction l generalizing l' with
  | nil =>
    cases l' with
    | nil => exact ⟨rfl, (List.cons.inj h).2⟩
    | cons d l' =>
      obtain ⟨x, xs, hd, hx⟩ := escape_eq_cons d
      simp only [List.flatMap_cons, hd, List.cons_append] at h
      exact absurd (List.cons.inj h).1.symm hx
  | cons c l ih =>
    cases l' with
    | nil =>
      obtain ⟨x, xs, hc, hx⟩ := escape_eq_cons c
      simp only [List.flatMap_cons, hc, List.cons_append] at h
      exact absurd (List.cons.inj h).1 hx
    | cons d l' =>
      simp only [List.flatMap_cons, List.append_assoc] at h
      obtain ⟨rfl, hrest⟩ := escape_append_inj h
      exact (ih hrest).imp_left (congrArg _)

theorem toList_quoted (s : String) : (quoted s).toList = '"' :: (s.toList.flatMap escape ++ ['"']) := by
  rw [quoted, String.toList_ofList, List.cons_append]

theorem legible_quoted (s : String) :
    Legible (fun s => (quoted s).toList) (fun _ => True) (fun _ => True) s := by
  intro s' r r' _ _ _ h
  simp only [toList_quoted, List.cons_append, List.append_assoc, List.nil_append, List.cons.injEq, true_and] at h
  exact (flatMap_escape_inj h).imp_left String.toList_inj.1

def closes (c : Char) : Bool := c == ')' || c == ']' || c == '\x7d' || c == ','

def listed {α : Type} (write : α → List Char) (close : Char) (as : List α) : List Char :=
  [',', ' '].intercalate (as.map write) ++ [close]

def more {α : Type} (write : α → List Char) (close : Char) (as : List α) : List Char :=
  as.flatMap (fun a => ',' :: ' ' :: write a) ++ [close]

section Listed

variable {α : Type} {write : α → List Char} {among : α → Prop} {close : Char}

theorem listed_cons (a : α) (as : List α) : listed write close (a :: as) = write a ++ more write close as := by
  induction as generalizing a with
  | nil => simp [listed, more]
  | cons b as ih =>
    rw [listed, more, List.flatMap_cons, List.append_assoc, ← more, List.cons_append, List.cons_append, ← ih,
      listed, List.map_cons, List.map_cons, List.intercalate_cons_cons]
    simp

theorem firstIs_more (hclose : closes close = true) (as : List α) (r : List Char) :
    FirstIs closes (more write close as ++ r) := by
  cases as with
  | nil => simpa [more] using hclose
  | cons a as => simp [more, closes]

variable (hclose : closes close = true) (hcomma : close ≠ ',')
include hclose hcomma

theorem legible_more {as : List α} (h : ∀ a ∈ as, Legible write (FirstIs closes) among a) :
    Legible (more write close) (fun _ => True) (∀ a ∈ ·, among a) as := by
  intro bs r s hbs _ _ he
  induction as generalizing bs with
  | nil =>
    cases bs with
    | nil => exact ⟨rfl, (List.cons.inj he).2⟩
    | cons b bs => exact absurd (List.cons.inj he).1 hcomma
  | cons a as ih =>
    cases bs with
    | nil => exact absurd (List.cons.inj he).1.symm hcomma
    | cons b bs =>
      have hitem : write a ++ (more write close as ++ r) = write b ++ (more write close bs ++ s) := by
        simpa [more] using he
      obtain ⟨rfl, hrest⟩ := h a (.head _) (hbs b (.head _)) (firstIs_more hclose as r) (firstIs_more hclose bs s) hitem
      exact (ih (fun a ha => h a (.tail _ ha)) (fun b hb => hbs b (.tail _ hb)) hrest).imp_left (congrArg _)

theorem legible_listed (hfirst : ∀ a, among a → ∃ c cs, write a = c :: cs ∧ c ≠ close) {as : List α}
    (has : ∀ a ∈ as, among a) (h : ∀ a ∈ as, Legible write (FirstIs closes) among a) :
    Legible (listed write close) (fun _ => True) (∀ a ∈ ·, among a) as := by
  intro bs r s hbs _ _ he
  cases as with
  | nil =>
    cases bs with
    | nil => exact ⟨rfl, (List.cons.inj he).2⟩
    | cons b bs =>
      obtain ⟨c, cs, hb, hc⟩ := hfirst b (hbs b (.head _))
      rw [listed_cons, hb] at he
      exact absurd (List.cons.inj he).1.symm hc
  | cons a as =>
    cases bs with
    | nil =>
      obtain ⟨c, cs, ha, hc⟩ := hfirst a (has a (.head _))
      rw [listed_cons, ha] at he
      exact absurd (List.cons.inj he).1 hc
    | cons b bs =>
      rw [listed_cons, listed_cons, List.append_assoc, List.append_assoc] at he
      obtain ⟨rfl, hrest⟩ := h a (.head _) (hbs b (.head _)) (firstIs_more hclose as r) (firstIs_more hclose bs s) he
      obtain ⟨rfl, hrs⟩ := legible_more hclose hcomma (fun a ha => h a (.tail _ ha))
        (fun b hb => hbs b (.tail _ hb)) trivial trivial hrest
      exact ⟨rfl, hrs⟩

end Listed

end LuaLift.Text
