import Amigos.Contrib.Elements
import Amigos.Contrib.Values
import Amigos.Indexer.Run

/-!
# The files of raw data (`XMLDocument::LoadFile`, `XMLElement::GetText`)

The indexer sees a file as a tree of elements: `FirstChildElement` and `NextSiblingElement` pass
over whatever is not one, and `GetText` is the value of the first child, if this is a text. The
value of a text outside a section is decoded when it is asked for, and the decoder need not be
defined (`Amigos.Contrib.Values`).
-/

set_option autoImplicit false

namespace Amigos.Indexer

open Amigos.Lib
open Amigos.TinyXml2 (Node Str)

/-! ## The source -/

/-- `Value` of a text. -/
def textValue (characterRef : Str → Option (Str × ℕ)) (cdata : Bool) (value : Str) : Option Str :=
  if cdata then some (TinyXml2.normalizeNewlines value)
  else TinyXml2.getStr characterRef (value.length + 1) value

/-- `GetText`, of an element with these children; it may be null. -/
def getText (characterRef : Str → Option (Str × ℕ)) : List Node → Option (Option Str)
  | .text cdata value :: _ => (textValue characterRef cdata value).map some
  | _ => some none

mutual

/-- A node, if it is an element. -/
def element (characterRef : Str → Option (Str × ℕ)) : Node → Option (Option XMLElement)
  | .element name _ children => do
    let text ← getText characterRef children
    let childElements ← elements characterRef children
    return some (.mk (String.ofList name) (text.map utf8) childElements)
  | _ => some none

/-- The elements among some nodes. -/
def elements (characterRef : Str → Option (Str × ℕ)) : List Node → Option (List XMLElement)
  | [] => some []
  | node :: nodes => do
    let first ← element characterRef node
    let siblings ← elements characterRef nodes
    return first.toList ++ siblings

end

/-- `LoadFile` of a file with this text. -/
def loadFile (characterRef : Str → Option (Str × ℕ)) (fuel : ℕ) (text : Str) :
    Option RawFileKind :=
  match TinyXml2.parse fuel text with
  | .ok nodes => (elements characterRef nodes).map .xml
  | .exception _ => some .malformed
  | .undefined => none

end Amigos.Indexer
