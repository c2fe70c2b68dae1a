import Mathlib.Data.List.Infix
import Promscale.Aggregates.Basic
import Promscale.Lib.LruCache

/-!
# Matching with cached expressions

`src/regex.rs`. Compiling an expression is expensive, so a session keeps the expressions it has
used last. A call answers as if it had compiled its pattern itself, whatever the calls before it
have left in the cache, and one that fails leaves no trace there.
-/
namespace Promscale.Re2

open Promscale.Lib
open Promscale.Aggregates (Raise)

/-- What `re2_match` calls of the crate `regex`. -/
structure RegexCrate where
  Regex : Type
  Error : Type
  /-- `Regex::new` -/
  new : String → Except Error Regex
  isMatch : Regex → String → Bool
  /-- The text of an error. -/
  display : Error → String

structure CompiledRegex (R : Type) where
  pattern : String
  matcher : R

def CACHE_SIZE : Nat := 32

/-- The thread's `CACHE`, a cell that is borrowed while a closure uses what is in it. -/
structure Session {R : Type} (lru : LruCache (CompiledRegex R)) where
  cache : lru.Cache
  borrowed : Bool

variable {crate : RegexCrate} {lru : LruCache (CompiledRegex crate.Regex)}

/-- `RefCell::default()` -/
def Session.initial (lru : LruCache (CompiledRegex crate.Regex)) : Session lru where
  cache := lru.empty
  borrowed := false

/-- `CACHE.with(|cache| { let mut cache = cache.borrow_mut(); .. })`. The borrow ends when the
closure returns, and also when an error unwinds through it. -/
def Session.withCache {β : Type} (s : Session lru)
    (closure : lru.Cache → Except Raise β × lru.Cache) : Except Raise β × Session lru :=
  if s.borrowed then (.error (.panic "already borrowed: BorrowMutError"), s)
  else ((closure s.cache).1, { cache := (closure s.cache).2, borrowed := false })

def compileError (crate : RegexCrate) (e : crate.Error) : Raise :=
  .error ("unable to compile regular expression: " ++ crate.display e)

/-- The closure of `re2_match`. -/
def matchCached (string pattern : String) (cache : lru.Cache) : Except Raise Bool × lru.Cache :=
  match lru.find (fun i => i.pattern = pattern) cache with
  | (some compiled, cache) => (.ok (crate.isMatch compiled.matcher string), cache)
  | (none, cache) =>
    match crate.new pattern with
    | .ok matcher => (.ok (crate.isMatch matcher string), lru.insert ⟨pattern, matcher⟩ cache)
    | .error e => (.error (compileError crate e), cache)

def re2Match (string pattern : String) (s : Session lru) : Except Raise Bool × Session lru :=
  s.withCache (matchCached string pattern)

/-- A call with its string and its pattern. -/
structure Call where
  string : String
  pattern : String

/-- One call after the other. -/
def runCalls : Session lru → List Call → List (Except Raise Bool) × Session lru
  | s, [] => ([], s)
  | s, call :: calls =>
    let (outcome, s) := re2Match call.string call.pattern s
    let (outcomes, s) := runCalls s calls
    (outcome :: outcomes, s)

/-- What compiling the pattern afresh and matching would return. -/
def freshMatch (crate : RegexCrate) (call : Call) : Except Raise Bool :=
  match crate.new call.pattern with
  | .ok matcher => .ok (crate.isMatch matcher call.string)
  | .error e => .error (compileError crate e)

/-! ## One call -/

/-- Every cached matcher is the compilation of the pattern it is stored with, each pattern is
cached once, and nobody holds the cell. -/
structure Session.Sound (s : Session lru) : Prop where
  free : s.borrowed = false
  compiled : ∀ i ∈ lru.entries s.cache, crate.new i.pattern = .ok i.matcher
  distinct : ((lru.entries s.cache).map (·.pattern)).Nodup
  bounded : (lru.entries s.cache).length ≤ CACHE_SIZE

/-- Two sessions with the same entries in the same order of use. -/
structure Session.Same (s s' : Session lru) : Prop where
  free : s.borrowed = false
  free' : s'.borrowed = false
  entries : lru.entries s.cache = lru.entries s'.cache

/-- How a call ends. -/
inductive Ends (string pattern : String) (s : Session lru) :
    Except Raise Bool × Session lru → Prop
  | hit {compiled : CompiledRegex crate.Regex} {cache : lru.Cache}
      (found : lru.find (fun i => i.pattern = pattern) s.cache = (some compiled, cache)) :
      Ends string pattern s (.ok (crate.isMatch compiled.matcher string), ⟨cache, false⟩)
  | miss {matcher : crate.Regex} {cache : lru.Cache}
      (missed : lru.find (fun i => i.pattern = pattern) s.cache = (none, cache))
      (compiles : crate.new pattern = .ok matcher) :
      Ends string pattern s
        (.ok (crate.isMatch matcher string), ⟨lru.insert ⟨pattern, matcher⟩ cache, false⟩)
  | invalid {e : crate.Error} {cache : lru.Cache}
      (missed : lru.find (fun i => i.pattern = pattern) s.cache = (none, cache))
      (fails : crate.new pattern = .error e) :
      Ends string pattern s (.error (compileError crate e), ⟨cache, false⟩)

theorem re2Match_of_free (string pattern : String) {s : Session lru}
    (hfree : s.borrowed = false) :
    re2Match string pattern s = ((matchCached string pattern s.cache).1,
      ⟨(matchCached string pattern s.cache).2, false⟩) :=
  if_neg (by simp [hfree])

theorem re2Match_ends (string pattern : String) {s : Session lru} (hfree : s.borrowed = false) :
    Ends string pattern s (re2Match string pattern s) := by
  rw [re2Match_of_free _ _ hfree, matchCached]
  cases hfind : lru.find (fun i => i.pattern = pattern) s.cache with
  | mk found cache =>
    cases found with
    | some compiled => exact .hit hfind
    | none =>
      cases hnew : crate.new pattern with
      | ok matcher => exact .miss hfind hnew
      | error e => exact .invalid hfind hnew

section Cached
variable (hlru : lru.Documented CACHE_SIZE)

include hlru

theorem sound_initial : (Session.initial lru : Session lru).Sound where
  free := rfl
  compiled i hi := by simp [Session.initial, hlru.entries_empty] at hi
  distinct := by simp [Session.initial, hlru.entries_empty]
  bounded := by simp [Session.initial, hlru.entries_empty]

/-- A search keeps the session sound. -/
theorem sound_find {s : Session lru} (hs : s.Sound) (p : CompiledRegex crate.Regex → Bool) :
    (⟨(lru.find p s.cache).2, false⟩ : Session lru).Sound where
  free := rfl
  compiled i hi := hs.compiled i ((hlru.perm_find p s.cache).mem_iff.mp hi)
  distinct := ((hlru.perm_find p s.cache).map _).nodup_iff.mpr hs.distinct
  bounded := by
    rw [(hlru.perm_find p s.cache).length_eq]
    exact hs.bounded

/-- Step lemma: a call answers as if it had compiled its pattern. -/
theorem re2Match_sound {s : Session lru} (hs : s.Sound) (call : Call) :
    (re2Match call.string call.pattern s).1 = freshMatch crate call ∧
      (re2Match call.string call.pattern s).2.Sound := by
  have hsearched := sound_find hlru hs fun i => decide (i.pattern = call.pattern)
  have hends := re2Match_ends call.string call.pattern hs.free
  generalize re2Match call.string call.pattern s = result at hends ⊢
  cases hends with
  | @hit compiled cache found =>
    rw [found] at hsearched
    obtain ⟨hmem, hpattern⟩ := hlru.mem_of_found (congrArg Prod.fst found)
    have hcompiled := hs.compiled compiled hmem
    rw [of_decide_eq_true hpattern] at hcompiled
    refine ⟨?_, hsearched⟩
    rw [freshMatch, hcompiled]
  | @miss matcher cache missed compiles =>
    rw [missed] at hsearched
    refine ⟨?_, rfl, ?_, ?_, hlru.length_inserted⟩
    · rw [freshMatch, compiles]
    · intro i hi
      rcases hlru.mem_inserted hi with rfl | hi
      · exact compiles
      · exact hsearched.compiled i hi
    · apply hlru.nodup_inserted hsearched.distinct
      intro i hi
      have hperm := hlru.perm_find (fun i => decide (i.pattern = call.pattern)) s.cache
      rw [missed] at hperm
      have hmissed := hlru.not_of_missed (congrArg Prod.fst missed)
      exact of_decide_eq_false (hmissed i (hperm.mem_iff.mp hi))
  | @invalid e cache missed fails =>
    rw [missed] at hsearched
    refine ⟨?_, hsearched⟩
    rw [freshMatch, fails]

/-- A call that fails leaves the entries as they are. -/
theorem same_of_invalid {s : Session lru} (hs : s.Sound) {call : Call} {e : crate.Error}
    (hinvalid : crate.new call.pattern = .error e) :
    (re2Match call.string call.pattern s).2.Same s := by
  have hends := re2Match_ends call.string call.pattern hs.free
  generalize re2Match call.string call.pattern s = result at hends ⊢
  cases hends with
  | @hit compiled cache found =>
    obtain ⟨hmem, hpattern⟩ := hlru.mem_of_found (congrArg Prod.fst found)
    have hcompiled := hs.compiled compiled hmem
    rw [of_decide_eq_true hpattern, hinvalid] at hcompiled
    cases hcompiled
  | miss missed compiles =>
    rw [hinvalid] at compiles
    cases compiles
  | @invalid e' cache missed fails =>
    have huntouched := hlru.untouched _ _ (congrArg Prod.fst missed)
    rw [missed] at huntouched
    exact ⟨rfl, hs.free, huntouched⟩

/-- Two caches with the same entries answer alike. -/
theorem matchCached_congr {cache cache' : lru.Cache}
    (h : lru.entries cache = lru.entries cache') (string pattern : String) :
    (matchCached string pattern cache).1 = (matchCached string pattern cache').1 ∧
      lru.entries (matchCached string pattern cache).2 =
        lru.entries (matchCached string pattern cache').2 := by
  have hfound := hlru.found_congr (fun i => decide (i.pattern = pattern)) h
  have hfind := hlru.find_congr (fun i => decide (i.pattern = pattern)) h
  unfold matchCached
  cases hcache : lru.find (fun i => decide (i.pattern = pattern)) cache with
  | mk found next =>
  cases hcache' : lru.find (fun i => decide (i.pattern = pattern)) cache' with
  | mk found' next' =>
  rw [hcache, hcache'] at hfound hfind
  cases hfound
  cases found with
  | some compiled => exact ⟨rfl, hfind⟩
  | none =>
    cases crate.new pattern with
    | ok matcher => exact ⟨rfl, hlru.insert_congr hfind⟩
    | error e => exact ⟨rfl, hfind⟩

theorem re2Match_same {s s' : Session lru} (h : s.Same s') (call : Call) :
    (re2Match call.string call.pattern s).1 = (re2Match call.string call.pattern s').1 ∧
      (re2Match call.string call.pattern s).2.Same (re2Match call.string call.pattern s').2 := by
  obtain ⟨houtcome, hentries⟩ := matchCached_congr hlru h.entries call.string call.pattern
  rw [re2Match_of_free _ _ h.free, re2Match_of_free _ _ h.free']
  exact ⟨houtcome, rfl, rfl, hentries⟩

/-! ## Whole sessions -/

/-- Run lemma: every call answers as if it had compiled its pattern. -/
theorem runCalls_sound {s : Session lru} (hs : s.Sound) (calls : List Call) :
    (runCalls s calls).1 = calls.map (freshMatch crate) ∧ (runCalls s calls).2.Sound := by
  induction calls generalizing s with
  | nil => exact ⟨rfl, hs⟩
  | cons call calls ih =>
    obtain ⟨houtcome, hnext⟩ := re2Match_sound hlru hs call
    obtain ⟨houtcomes, hend⟩ := ih hnext
    refine ⟨?_, hend⟩
    rw [List.map_cons, ← houtcome, ← houtcomes]
    rfl

theorem runCalls_same {s s' : Session lru} (h : s.Same s') (calls : List Call) :
    (runCalls s calls).1 = (runCalls s' calls).1 ∧ (runCalls s calls).2.Same (runCalls s' calls).2 := by
  induction calls generalizing s s' with
  | nil => exact ⟨rfl, h⟩
  | cons call calls ih =>
    obtain ⟨houtcome, hnext⟩ := re2Match_same hlru h call
    obtain ⟨houtcomes, hend⟩ := ih hnext
    exact ⟨congrArg₂ List.cons houtcome houtcomes, hend⟩

end Cached

/-- In a session each call returns what compiling its pattern afresh and matching would, a call
with an invalid pattern raises, and all later calls find the cache as if it had not been made. -/
theorem re2Match_agrees_with_fresh (crate : RegexCrate)
    (lru : LruCache (CompiledRegex crate.Regex)) (hlru : lru.Documented CACHE_SIZE) :
    (∀ calls, (runCalls (Session.initial lru) calls).1 = calls.map (freshMatch crate)) ∧
      ∀ (before : List Call) (failing : Call) e, crate.new failing.pattern = .error e →
        let s := (runCalls (Session.initial lru) before).2
        let failed := re2Match failing.string failing.pattern s
        failed.1 = .error (compileError crate e) ∧
          ∀ later, (runCalls failed.2 later).1 = (runCalls s later).1 ∧
            (runCalls failed.2 later).2.Same (runCalls s later).2 := by
  have hinitial := @sound_initial crate lru hlru
  refine ⟨fun calls => (runCalls_sound hlru hinitial calls).1, ?_⟩
  intro before failing e hinvalid
  have hs := (runCalls_sound hlru hinitial before).2
  refine ⟨?_, runCalls_same hlru (same_of_invalid hlru hs hinvalid)⟩
  rw [(re2Match_sound hlru hs failing).1, freshMatch, hinvalid]

/-- Expressions without operators, which match where they stand in the string. -/
def literals : RegexCrate where
  Regex := List Char
  Error := String
  new pattern :=
    if '(' ∈ pattern.toList then
      .error ("regex parse error:\n    " ++ pattern ++ "\n    ^\nerror: unclosed group")
    else .ok pattern.toList
  isMatch literal string := decide (literal.IsInfix string.toList)
  display e := e

theorem re2Match_agrees_with_fresh_literals :
    (runCalls (Session.initial (LruCache.ofList (CompiledRegex literals.Regex) CACHE_SIZE))
      [⟨"test", "test"⟩, ⟨"test", "("⟩, ⟨"test", "unnest"⟩]).1 =
        [.ok true, .error (.error ("unable to compile regular expression: regex parse error:\n" ++
          "    (\n    ^\nerror: unclosed group")), .ok false] := by
  have hspec := re2Match_agrees_with_fresh literals _ (LruCache.documented_ofList _ CACHE_SIZE)
  rw [hspec.1]
  decide +kernel

end Promscale.Re2
