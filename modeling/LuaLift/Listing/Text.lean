import LuaLift.Listing.Decode
import LuaLift.Toml.Document

namespace LuaLift

def Toml.dialect : Dialect := ⟨Value.plainNumber?, true, true⟩

def Proto.ofListing? (text : String) : Option (List Proto) :=
  (Toml.document? text).bind (Decode.listing Toml.dialect)

def Options.ofText? (text : String) : Option Options :=
  (Toml.document? text).bind (Decode.options Toml.dialect)

end LuaLift
