import Promscale.Jsonb.Equality
import Promscale.Jsonb.Output
import Promscale.Lib.Members

/-!
# Operators on jsonb values

`->>`, `||`, `?&` and `=` as Postgres documents them, `jsonb_build_object`, and the cast of a text
to `boolean`.
-/
namespace Promscale.Jsonb

open Promscale.Lib

/-- A text of the source. -/
def PgText.literal (s : String) (h : 0 ∉ s.toUTF8.data.toList := by decide) : PgText := ⟨_, h⟩

/-- The texts of the members of an object; NULL for a null. -/
def Value.asText : Value Numeric → Option PgText
  | .scalar .null => none
  | .scalar (.string s) => some s
  | v => some v.text

/-- `->>`; `none` is NULL, which it is of everything but objects. -/
def Value.fieldText (key : PgText) : Value Numeric → Option PgText
  | .object ms => (ms.find? (·.1 = key)).bind fun m => m.2.asText
  | _ => none

/-- What a value adds to an array: an array its elements, all else itself. -/
def Value.elements : Value Numeric → List (Value Numeric)
  | .array xs => xs
  | v => [v]

/-- `||`, since Postgres 14: of two objects the members, where the second has the last word; of
anything else an array. -/
def Value.concat : Value Numeric → Value Numeric → Value Numeric
  | .object ms, .object ns =>
    .object (ns.foldl (fun ms n => Members.insert PgText.lengthThenBytes n.1 n.2 ms) ms)
  | v, w => .array (v.elements ++ w.elements)

/-- `jsonb_build_object` of one key and a text. -/
def jsonbBuildObject (key text : PgText) : Value Numeric :=
  .object [(key, .scalar (.string text))]

/-- `?`: a key of an object, or a string of an array. -/
def Value.existsKey (key : PgText) : Value Numeric → Bool
  | .object ms => ms.any fun m => m.1 = key
  | .array xs => xs.any fun
    | .scalar (.string s) => s = key
    | _ => false
  | .scalar (.string s) => s = key
  | .scalar _ => false

/-- `?&` -/
def Value.existsAll (keys : List PgText) (v : Value Numeric) : Bool := keys.all v.existsKey

/-- `=`, which compares the walks over the two values. -/
def Value.equals (v w : Value Numeric) : Bool :=
  v.preorder numericNormalize = w.preorder numericNormalize

def Value.IsObject : Value Numeric → Prop
  | .object _ => True
  | _ => False

/-! ## The cast to `boolean` -/

def isSpace (b : UInt8) : Bool := b = 0x20 || (0x09 ≤ b && b ≤ 0x0D)

/-- Without the blanks at its ends. -/
def trim (bs : List UInt8) : List UInt8 :=
  ((bs.dropWhile isSpace).reverse.dropWhile isSpace).reverse

def toLower (b : UInt8) : UInt8 := if 0x41 ≤ b && b ≤ 0x5A then b + 0x20 else b

/-- `parse_bool_with_len`: the start of a word, long enough to tell it from the others. -/
def parseBoolWithLen (value : List UInt8) : Option Bool :=
  let startsWord (word : String) (least : Nat) : Bool :=
    least ≤ value.length && (value.map toLower).isPrefixOf word.toUTF8.data.toList
  if startsWord "true" 1 || startsWord "yes" 1 || startsWord "on" 2 || startsWord "1" 1 then
    some true
  else if startsWord "false" 1 || startsWord "no" 1 || startsWord "off" 2 || startsWord "0" 1 then
    some false
  else none

/-- `boolin` -/
def boolin (s : PgText) : Option Bool := parseBoolWithLen (trim s.bytes)

/-! ## What the operators say of each other -/

@[simp] theorem Value.equals_self (v : Value Numeric) : v.equals v = true := by
  simp [equals]

theorem Value.concat_jsonbBuildObject (ms : List (PgText × Value Numeric)) (key text : PgText) :
    Value.concat (.object ms) (jsonbBuildObject key text) =
      .object (Members.insert PgText.lengthThenBytes key (.scalar (.string text)) ms) := rfl

theorem Value.existsKey_of_fieldText {v : Value Numeric} {key text : PgText}
    (h : v.fieldText key = some text) : v.existsKey key = true := by
  cases v with
  | scalar s => cases h
  | array xs => cases h
  | object ms =>
    obtain ⟨m, hm, -⟩ := Option.bind_eq_some_iff.mp h
    have hkey := List.find?_some hm
    exact List.any_eq_true.mpr ⟨m, List.mem_of_find?_eq_some hm, hkey⟩

end Promscale.Jsonb
