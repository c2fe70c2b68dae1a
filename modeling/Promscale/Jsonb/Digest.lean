import Promscale.Lib.Framing
import Promscale.Lib.LittleEndian
import Promscale.Jsonb.Equality

/-!
# The digest of a jsonb value

`src/jsonb_digest.rs`. Every token is fed to the hasher as its index, a tag and its text.
The text has no length before it; it is still clear where it ends, since no text has a
NUL and the next index ends in one.
-/
namespace Promscale.Jsonb

open Promscale.Aggregates (Raise)
open Promscale.Lib

/-- The arm of the `match` of `jsonb_digest` for a token: its tag and its text. -/
def Token.update : Token → List UInt8
  | .null => [0x01]
  | .bool true => [0x02]
  | .bool false => [0x03]
  | .string str => 0x04 :: str.bytes
  | .numeric n => 0x05 :: n.bytes
  | .key str => 0x0A :: str.bytes
  | .beginObject => [0x0B]
  | .endObject => [0x0C]
  | .beginArray => [0x0D]
  | .endArray => [0x0E]

/-- What the enumerated tokens feed to the hasher, `idx` being a `usize`. -/
def hasherInput (tokens : List Token) : List UInt8 :=
  tokens.zipIdx.flatMap fun (token, idx) => leBytes 8 idx ++ token.update

section Digest
variable {N : Type} (numericNormalize : N → PgText)

def digestInput (jsonb : Value N) : Except Raise (List UInt8) :=
  (tokens numericNormalize jsonb).map hasherInput

def jsonbDigest (sha512 : List UInt8 → List UInt8) (jsonb : Value N) :
    Except Raise (List UInt8) :=
  (digestInput numericNormalize jsonb).map sha512

end Digest

section Walk
variable {N : Type} (numericNormalize : N → PgText)

private theorem collect_of_next {self after : TokenIterator N} {token : Token} {ts : List Token}
    (hnext : self.next numericNormalize = .ok (some (token, after)))
    (hafter : after.collect numericNormalize = .ok ts) :
    self.collect numericNormalize = .ok (token :: ts) := by
  rw [TokenIterator.collect]
  split <;> rename_i h <;> rw [hnext] at h <;> cases h
  rw [hafter]
  rfl

private theorem extractValueToken_jsonbValue (s : Scalar N) :
    extractValueToken numericNormalize s.jsonbValue = .ok (s.token numericNormalize) := by
  cases s <;> rfl

mutual

/-- Walking a nested value yields its tokens before those of the rest of the walk. -/
private theorem collect_nestedEvents : ∀ (v : Value N) (r : JsonbIteratorToken)
    (rest : List (JsonbEvent N)) (ts : List Token), r = .WJB_ELEM ∨ r = .WJB_VALUE →
    (TokenIterator.mk rest false).collect numericNormalize = .ok ts →
    (TokenIterator.mk (v.nestedEvents r ++ rest) false).collect numericNormalize =
      .ok (v.preorder numericNormalize ++ ts)
  | .scalar s, r, rest, ts, hr, h => by
    refine collect_of_next numericNormalize ?_ h
    rcases hr with rfl | rfl <;>
      simp only [Value.nestedEvents, List.cons_append, List.nil_append, TokenIterator.next,
        TokenIterator.nextFrom, extractValueToken_jsonbValue]
  | .array xs, r, rest, ts, _, h => by
    have hend : (TokenIterator.mk ((.WJB_END_ARRAY, .array false) :: rest) false).collect
        numericNormalize = .ok (.endArray :: ts) := collect_of_next numericNormalize rfl h
    have hbody := collect_elementEvents xs _ _ hend
    simp only [Value.nestedEvents, Value.preorder, List.cons_append, List.append_assoc,
      List.nil_append]
    exact collect_of_next numericNormalize rfl hbody
  | .object ms, r, rest, ts, _, h => by
    have hend : (TokenIterator.mk ((.WJB_END_OBJECT, .object) :: rest) false).collect
        numericNormalize = .ok (.endObject :: ts) := collect_of_next numericNormalize rfl h
    have hbody := collect_memberEvents ms _ _ hend
    simp only [Value.nestedEvents, Value.preorder, List.cons_append, List.append_assoc,
      List.nil_append]
    exact collect_of_next numericNormalize rfl hbody

private theorem collect_elementEvents : ∀ (xs : List (Value N)) (rest : List (JsonbEvent N))
    (ts : List Token), (TokenIterator.mk rest false).collect numericNormalize = .ok ts →
    (TokenIterator.mk (Value.elementEvents xs ++ rest) false).collect numericNormalize =
      .ok (Value.elementsPreorder numericNormalize xs ++ ts)
  | [], _, _, h => h
  | x :: xs, rest, ts, h => by
    rw [Value.elementEvents, Value.elementsPreorder, List.append_assoc, List.append_assoc]
    exact collect_nestedEvents x _ _ _ (.inl rfl) (collect_elementEvents xs rest ts h)

private theorem collect_memberEvents : ∀ (ms : List (PgText × Value N))
    (rest : List (JsonbEvent N)) (ts : List Token),
    (TokenIterator.mk rest false).collect numericNormalize = .ok ts →
    (TokenIterator.mk (Value.memberEvents ms ++ rest) false).collect numericNormalize =
      .ok (Value.membersPreorder numericNormalize ms ++ ts)
  | [], _, _, h => h
  | (k, v) :: ms, rest, ts, h => by
    rw [Value.memberEvents, Value.membersPreorder, List.cons_append, List.append_assoc,
      List.cons_append, List.append_assoc]
    exact collect_of_next numericNormalize rfl
      (collect_nestedEvents v _ _ _ (.inr rfl) (collect_memberEvents ms rest ts h))

end

/-- The iterator yields the pre-order tokens and never raises; of the pseudo-array around
a top-level scalar only the scalar is seen. -/
theorem tokens_eq_preorder (v : Value N) :
    tokens numericNormalize v = .ok (v.preorder numericNormalize) := by
  have hdone : ∀ flag, (TokenIterator.mk ([] : List (JsonbEvent N)) flag).collect
      numericNormalize = .ok [] := by
    intro flag
    rw [TokenIterator.collect]
    rfl
  cases v with
  | scalar s =>
    have hend : (TokenIterator.mk [((.WJB_END_ARRAY, .array true) : JsonbEvent N)] true).collect
        numericNormalize = .ok [] := by
      rw [TokenIterator.collect]
      rfl
    refine collect_of_next numericNormalize ?_ hend
    simp [Value.events, TokenIterator.next, TokenIterator.nextFrom, JsonbValue.rawScalar,
      extractValueToken_jsonbValue]
  | array xs =>
    have h := collect_nestedEvents numericNormalize (.array xs) _ [] [] (.inl rfl) (hdone false)
    rwa [List.append_nil, List.append_nil] at h
  | object ms =>
    have h := collect_nestedEvents numericNormalize (.object ms) _ [] [] (.inl rfl) (hdone false)
    rwa [List.append_nil, List.append_nil] at h

end Walk

/-- No two tokens share a tag, but for the text after it. -/
theorem Token.update_injective {s t : Token} (h : s.update = t.update) : s = t := by
  rcases s with _ | _ | _ | _ | s | _ | (_ | _) | s | s <;>
    rcases t with _ | _ | _ | _ | t | _ | (_ | _) | t | t <;>
    simp [Token.update, PgText.ext_iff] at h ⊢
  all_goals exact h

theorem Token.update_noNul (t : Token) : 0 ∉ t.update := by
  cases t with
  | bool b => cases b <;> decide
  | key s => simpa [Token.update] using s.noNul
  | string s => simpa [Token.update] using s.noNul
  | numeric s => simpa [Token.update] using s.noNul
  | _ => decide

theorem hasherInput_eq_framesFrom (tokens : List Token) :
    hasherInput tokens = framesFrom (leBytes 8) 0 (tokens.map Token.update) := by
  suffices h : ∀ n, ((tokens.zipIdx n).flatMap fun (token, idx) => leBytes 8 idx ++ token.update) =
      framesFrom (leBytes 8) n (tokens.map Token.update) from h 0
  intro n
  induction tokens generalizing n with
  | nil => rfl
  | cons token rest ih =>
    rw [List.zipIdx_cons, List.flatMap_cons, ih, List.map_cons, framesFrom, List.append_assoc]

/-- Below `2 ^ 56` tokens, the input of the hasher determines the tokens. -/
theorem hasherInput_injective {ss ts : List Token} (hss : ss.length < 2 ^ 56)
    (hts : ts.length < 2 ^ 56) (h : hasherInput ss = hasherInput ts) : ss = ts := by
  rw [hasherInput_eq_framesFrom, hasherInput_eq_framesFrom] at h
  have hindex : ∀ i < 2 ^ 56, (leBytes 8 i).getLast? = some 0 := by
    intro i hi
    rw [List.getLast?_eq_getElem?, leBytes_length,
      List.getElem?_eq_getElem (by rw [leBytes_length]; decide), leBytes_getElem,
      Nat.div_eq_of_lt (by omega)]
    rfl
  have hnoNul : ∀ us : List Token, ∀ body ∈ us.map Token.update, (0 : UInt8) ∉ body := by
    intro us body hbody
    obtain ⟨u, _, rfl⟩ := List.mem_map.mp hbody
    exact u.update_noNul
  have hframes := framesFrom_injective hindex 0 _ _ (hnoNul ss) (hnoNul ts)
    (by rw [List.length_map]; omega) (by rw [List.length_map]; omega) h
  exact List.map_injective_iff.mpr (fun _ _ => Token.update_injective) hframes

/-- `jsonb_digest` feeds two values to the hasher as the same octets exactly when they are
equal. -/
theorem digestInput_eq_iff {N : Type} (numericNormalize : N → PgText)
    (numericEq : N → N → Prop) (keyLt : PgText → PgText → Prop)
    (hnormalize : ∀ m n, numericNormalize m = numericNormalize n ↔ numericEq m n)
    (hasymm : ∀ s t, keyLt s t → ¬ keyLt t s) (v w : Value N)
    (hv : v.Canonical keyLt) (hw : w.Canonical keyLt)
    (hvtokens : ∀ ts, tokens numericNormalize v = .ok ts → ts.length < 2 ^ 56)
    (hwtokens : ∀ ts, tokens numericNormalize w = .ok ts → ts.length < 2 ^ 56) :
    ∃ a b, digestInput numericNormalize v = .ok a ∧ digestInput numericNormalize w = .ok b ∧
      (a = b ↔ v.Equal numericEq w) := by
  have htokens := tokens_eq_preorder numericNormalize
  refine ⟨_, _, by rw [digestInput, htokens]; rfl, by rw [digestInput, htokens]; rfl, ?_⟩
  rw [← Value.preorder_eq_iff hnormalize hasymm v w hv hw]
  constructor
  · exact hasherInput_injective (hvtokens _ (htokens v)) (hwtokens _ (htokens w))
  · intro h
    rw [h]

/-- `1.01` and `1.010` as numerics that remember their scale; both normalize to `1.01`. -/
def onePointZeroOne (_trailingZero : Bool) : PgText := ⟨[0x31, 0x2E, 0x30, 0x31], by decide⟩

/-- `{"a": n, "b": [rest]}` -/
def twoMembers (n : Bool) (rest : Scalar Bool) : Value Bool :=
  .object [(⟨[0x61], by decide⟩, .scalar (.numeric n)),
    (⟨[0x62], by decide⟩, .array [.scalar rest])]

theorem digestInput_eq_iff_trailingZero :
    (∃ a, digestInput onePointZeroOne (twoMembers false .null) = .ok a ∧
      digestInput onePointZeroOne (twoMembers true .null) = .ok a) ∧
    digestInput onePointZeroOne (twoMembers false .null) ≠
      digestInput onePointZeroOne (twoMembers false (.bool true)) := by
  have hiff := fun n rest => digestInput_eq_iff onePointZeroOne (fun _ _ => True)
    PgText.lengthThenBytes (by simp [onePointZeroOne]) PgText.lengthThenBytes_asymm
    (twoMembers false .null) (twoMembers n rest) (by simp [twoMembers, Value.Canonical,
      Value.membersCanonical, Value.elementsCanonical]; decide)
    (by simp [twoMembers, Value.Canonical, Value.membersCanonical, Value.elementsCanonical]; decide)
    (by simp [tokens_eq_preorder, twoMembers, Value.preorder, Value.membersPreorder,
      Value.elementsPreorder])
    (by simp [tokens_eq_preorder, twoMembers, Value.preorder, Value.membersPreorder,
      Value.elementsPreorder])
  constructor
  · obtain ⟨a, b, ha, hb, hab⟩ := hiff true .null
    have hequal : (twoMembers false .null).Equal (fun _ _ => True) (twoMembers true .null) :=
      ⟨fun _ => Iff.rfl, ⟨_, List.mem_cons_self, trivial⟩,
        ⟨_, List.mem_cons_of_mem _ List.mem_cons_self, trivial, trivial⟩, trivial⟩
    have heq := hab.mpr hequal
    exact ⟨a, ha, heq ▸ hb⟩
  · obtain ⟨a, b, ha, hb, hab⟩ := hiff false (.bool true)
    rw [ha, hb]
    intro h
    obtain ⟨_, _, ⟨w, hw, hequal⟩, _⟩ := hab.mp (Except.ok.inj h)
    have hw' : w = .array [.scalar (.bool true)] := by simpa using hw
    subst hw'
    exact hequal.1

end Promscale.Jsonb
