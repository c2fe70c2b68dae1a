import Promscale.Jsonb.Numerics

/-!
# The text of a jsonb value

What Postgres prints for a jsonb value: strings escaped between double quotes, `, ` between
elements and members, `: ` after a key.
-/
namespace Promscale.Jsonb

open Promscale.Lib

def hexDigit (d : Nat) : UInt8 := if d < 10 then UInt8.ofNat (0x30 + d) else UInt8.ofNat (0x57 + d)

/-- One octet of a string in `escape_json`. -/
def escapeOctet (b : UInt8) : List UInt8 :=
  if b = 0x08 then [0x5C, 0x62]
  else if b = 0x0C then [0x5C, 0x66]
  else if b = 0x0A then [0x5C, 0x6E]
  else if b = 0x0D then [0x5C, 0x72]
  else if b = 0x09 then [0x5C, 0x74]
  else if b = 0x22 then [0x5C, 0x22]
  else if b = 0x5C then [0x5C, 0x5C]
  else if b < 0x20 then
    [0x5C, 0x75, 0x30, 0x30, hexDigit (b.toNat / 16), hexDigit (b.toNat % 16)]
  else [b]

def escapeJson (s : PgText) : List UInt8 := 0x22 :: (s.bytes.flatMap escapeOctet ++ [0x22])

def trueOut : List UInt8 := [0x74, 0x72, 0x75, 0x65]
def falseOut : List UInt8 := [0x66, 0x61, 0x6C, 0x73, 0x65]

def Scalar.out : Scalar Numeric → List UInt8
  | .null => [0x6E, 0x75, 0x6C, 0x6C]
  | .bool true => trueOut
  | .bool false => falseOut
  | .string s => escapeJson s
  | .numeric n => numericOut n

/-- Texts with `, ` between them. -/
def separated : List (List UInt8) → List UInt8
  | [] => []
  | [t] => t
  | t :: u :: ts => t ++ 0x2C :: 0x20 :: separated (u :: ts)

mutual

/-- `JsonbToCString` -/
def Value.out : Value Numeric → List UInt8
  | .scalar s => s.out
  | .array xs => 0x5B :: (separated (elementTexts xs) ++ [0x5D])
  | .object ms => 0x7B :: (separated (memberTexts ms) ++ [0x7D])

def Value.elementTexts : List (Value Numeric) → List (List UInt8)
  | [] => []
  | x :: xs => x.out :: elementTexts xs

def Value.memberTexts : List (PgText × Value Numeric) → List (List UInt8)
  | [] => []
  | (k, v) :: ms => (escapeJson k ++ 0x3A :: 0x20 :: v.out) :: memberTexts ms

end

/-! ## No octet is NUL -/

theorem zero_notMem_escapeOctet : ∀ b : UInt8, b ≠ 0 → 0 ∉ escapeOctet b := by
  apply Decimal.octet_forall
  decide +kernel

theorem zero_notMem_escapeJson (s : PgText) : 0 ∉ escapeJson s := by
  intro hmem
  simp only [escapeJson, List.mem_cons, List.mem_append, List.mem_flatMap, List.not_mem_nil,
    or_false] at hmem
  rcases hmem with hmem | ⟨b, hb, hmem⟩ | hmem
  · exact absurd hmem (by decide)
  · exact zero_notMem_escapeOctet b (fun hzero => s.noNul (hzero ▸ hb)) hmem
  · exact absurd hmem (by decide)

theorem zero_notMem_scalarOut (s : Scalar Numeric) : 0 ∉ s.out := by
  cases s with
  | null => decide
  | bool b => cases b <;> decide
  | string s => exact zero_notMem_escapeJson s
  | numeric n => exact zero_notMem_numericOut n

theorem zero_notMem_separated {ts : List (List UInt8)} (h : ∀ t ∈ ts, 0 ∉ t) :
    0 ∉ separated ts := by
  fun_induction separated ts with
  | case1 => simp
  | case2 t => exact h t List.mem_cons_self
  | case3 t u ts ih =>
    have hrest := ih fun t' ht' => h t' (List.mem_cons_of_mem _ ht')
    have ht := h t List.mem_cons_self
    simp [ht, hrest]

mutual

theorem zero_notMem_out : ∀ v : Value Numeric, 0 ∉ v.out
  | .scalar s => by
    rw [Value.out]
    exact zero_notMem_scalarOut s
  | .array xs => by
    have hrest := zero_notMem_separated (zero_notMem_elementTexts xs)
    simp [Value.out, hrest]
  | .object ms => by
    have hrest := zero_notMem_separated (zero_notMem_memberTexts ms)
    simp [Value.out, hrest]

theorem zero_notMem_elementTexts : ∀ xs : List (Value Numeric), ∀ t ∈ Value.elementTexts xs, 0 ∉ t
  | [] => by simp [Value.elementTexts]
  | x :: xs => by
    have hx := zero_notMem_out x
    have hxs := zero_notMem_elementTexts xs
    simp only [Value.elementTexts, List.forall_mem_cons]
    exact ⟨hx, hxs⟩

theorem zero_notMem_memberTexts :
    ∀ ms : List (PgText × Value Numeric), ∀ t ∈ Value.memberTexts ms, 0 ∉ t
  | [] => by simp [Value.memberTexts]
  | (k, v) :: ms => by
    have hk := zero_notMem_escapeJson k
    have hv := zero_notMem_out v
    have hms := zero_notMem_memberTexts ms
    simp only [Value.memberTexts, List.forall_mem_cons]
    exact ⟨by simp [hk, hv], hms⟩

end

def Value.text (v : Value Numeric) : PgText := ⟨v.out, zero_notMem_out v⟩

end Promscale.Jsonb
