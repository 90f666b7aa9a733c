import Octf.Foundation.Run

/-! The cache of one trace: entries in a file, searched by key, appended, overwritten, and rebuilt
without an entry whose value is of another version or cannot be unpacked. The reads and writes of
the file succeed. -/
namespace Octf.Trace
open Foundation

/-- What is used of `google::protobuf::Any`: messages are packed into it and unpacked from it into
a message of a type. -/
structure AnyOps (Msg Any Ty : Type*) where
  packFrom : Msg → Option Any
  unpackTo : Ty → Any → Option Msg

structure TraceCache.Entry (Any : Type*) where
  key : Any
  value : Any
  version : String

structure TraceCache (Any : Type*) where
  entires : List (TraceCache.Entry Any)

namespace TraceCacheLocal

variable {Msg Any Ty : Type*} [DecidableEq Any]

/-- The first entry with the key, and where it is. -/
def find (cache : TraceCache Any) (key : Any) : Option (TraceCache.Entry Any × ℕ) :=
  cache.entires.zipIdx.find? fun entry => decide (entry.1.key = key)

/-- `version` is that of the framework. -/
def isCacheEntryValid (version : String) (entry : TraceCache.Entry Any) : Bool :=
  decide (entry.version = version)

def eraseCacheEntry (cache : TraceCache Any) (entry : TraceCache.Entry Any × ℕ) : TraceCache Any :=
  -- `CopyFrom(*entry)`: what is added is the erased entry and not the other one
  ⟨(cache.entires.zipIdx.filter fun iter => iter.2 ≠ entry.2).map fun _ => entry.1⟩

/-- The value, and the file behind the call; a file that is not there is an empty cache. -/
def read (ops : AnyOps Msg Any Ty) (version : String) (type : Ty) (key : Msg)
    (file : Option (TraceCache Any)) : Option Msg × Option (TraceCache Any) :=
  match ops.packFrom key with
  | none => (none, file)
  | some pKey =>
    let cache := file.getD ⟨[]⟩
    match find cache pKey with
    | none => (none, file)
    | some entry =>
      let result :=
        if isCacheEntryValid version entry.1 then ops.unpackTo type entry.1.value else none
      (result, if result.isNone then some (eraseCacheEntry cache entry) else file)

def write (ops : AnyOps Msg Any Ty) (version : String) (key value : Msg)
    (file : Option (TraceCache Any)) : Bool × Option (TraceCache Any) :=
  match ops.packFrom key with
  | none => (false, file)
  | some pKey =>
    let cache := file.getD ⟨[]⟩
    match ops.packFrom value with
    -- what was added is not written to the file
    | none => (false, file)
    | some pValue =>
      match find cache pKey with
      | none => (true, some ⟨cache.entires ++ [⟨pKey, pValue, version⟩]⟩)
      | some entry =>
        (true, some ⟨cache.entires.set entry.2 ⟨entry.1.key, pValue, version⟩⟩)

/-- A call, under the version of the framework at its time. -/
inductive Call (Msg Ty : Type*) where
  | read (version : String) (type : Ty) (key : Msg)
  | write (version : String) (key value : Msg)

def step (ops : AnyOps Msg Any Ty) (call : Call Msg Ty) (file : Option (TraceCache Any)) :
    Option (TraceCache Any) :=
  match call with
  | .read version type key => (read ops version type key file).2
  | .write version key value => (write ops version key value file).2

/-! ### What a key finds -/

/-- The entry a key finds in the file. -/
def lookup (file : Option (TraceCache Any)) (key : Any) : Option (TraceCache.Entry Any) :=
  (file.getD ⟨[]⟩).entires.find? fun entry => decide (entry.key = key)

/-- What an entry is worth under a version to a reader that asks for a type. -/
def usable (ops : AnyOps Msg Any Ty) (version : String) (type : Ty)
    (entry : TraceCache.Entry Any) : Option Msg :=
  if entry.version = version then ops.unpackTo type entry.value else none

section Lookup

variable {cache : TraceCache Any} {key : Any}

theorem find_map_fst (entires : List (TraceCache.Entry Any)) (key : Any) (n : ℕ) :
    ((entires.zipIdx n).find? fun entry => decide (entry.1.key = key)).map Prod.fst =
      entires.find? fun entry => decide (entry.key = key) := by
  induction entires generalizing n with
  | nil => rfl
  | cons entry entires ih =>
    rw [List.zipIdx_cons]
    by_cases hkey : entry.key = key
    · simp [hkey]
    · simp [hkey, ih]

theorem lookup_eq_find (cache : TraceCache Any) (key : Any) :
    lookup (some cache) key = (find cache key).map Prod.fst :=
  (find_map_fst cache.entires key 0).symm

theorem key_of_find {entry : TraceCache.Entry Any × ℕ} (h : find cache key = some entry) :
    entry.1.key = key := by
  have hkey := List.find?_some h
  simpa using hkey

/-- Overwriting the first entry with a key changes what this key finds and nothing else. -/
theorem find_set {entires : List (TraceCache.Entry Any)} {n : ℕ}
    {entry : TraceCache.Entry Any × ℕ}
    (h : (entires.zipIdx n).find? (fun entry => decide (entry.1.key = key)) = some entry)
    {new : TraceCache.Entry Any} (hnew : new.key = key) (other : Any) :
    (entires.set (entry.2 - n) new).find? (fun entry => decide (entry.key = other)) =
      if other = key then some new
      else entires.find? fun entry => decide (entry.key = other) := by
  induction entires generalizing n with
  | nil => cases h
  | cons first entires ih =>
    rw [List.zipIdx_cons] at h
    by_cases hkey : first.key = key
    · simp only [List.find?_cons, hkey, decide_true] at h
      obtain rfl := Option.some.inj h
      simp only [Nat.sub_self, List.set_cons_zero, List.find?_cons, hnew, hkey, eq_comm (a := key)]
      by_cases hother : other = key
      · simp [hother]
      · simp [hother]
    · simp only [List.find?_cons, hkey, decide_false] at h
      have hle : n + 1 ≤ entry.2 := by
        have hmem := List.mem_of_find?_eq_some h
        exact (List.le_snd_of_mem_zipIdx hmem)
      have hindex : entry.2 - n = entry.2 - (n + 1) + 1 := by omega
      rw [hindex, List.set_cons_succ]
      by_cases hother : first.key = other
      · have hne : other ≠ key := fun heq => hkey (hother.trans heq)
        simp [hother, hne]
      · simp only [List.find?_cons, hother, decide_false]
        exact ih h

theorem lookup_write (ops : AnyOps Msg Any Ty) (version : String) {newKey value : Msg}
    {pValue : Any} (hkey : ops.packFrom newKey = some key)
    (hvalue : ops.packFrom value = some pValue)
    (file : Option (TraceCache Any)) (other : Any) :
    lookup (write ops version newKey value file).2 other =
      if other = key then some ⟨key, pValue, version⟩ else lookup file other := by
  unfold write
  simp only [hkey, hvalue]
  cases hfind : find (file.getD ⟨[]⟩) key with
  | none =>
    have hnone : lookup file key = none := by
      have heq := lookup_eq_find (file.getD ⟨[]⟩) key
      rw [hfind] at heq
      exact heq
    simp only [lookup, Option.getD_some, List.find?_append, List.find?_singleton]
    by_cases hother : other = key
    · have hnone' : (file.getD ⟨[]⟩).entires.find? (fun entry => decide (entry.key = key)) = none :=
        hnone
      simp [hother, hnone']
    · simp [hother, eq_comm (a := key)]
  | some entry =>
    have hset : (((file.getD ⟨[]⟩).entires.set (entry.2 - 0) ⟨key, pValue, version⟩).find?
        fun entry => decide (entry.key = other)) =
          if other = key then some ⟨key, pValue, version⟩ else lookup file other :=
      find_set hfind rfl other
    simp only [key_of_find hfind]
    exact hset

end Lookup

section Read

variable {ops : AnyOps Msg Any Ty} {version : String} {type : Ty} {key : Msg} {pKey : Any}
  {file : Option (TraceCache Any)}

/-- A read returns what the entry found is worth. -/
theorem read_fst (hkey : ops.packFrom key = some pKey) :
    (read ops version type key file).1 = (lookup file pKey).bind (usable ops version type) := by
  have hlookup : lookup file pKey = (find (file.getD ⟨[]⟩) pKey).map Prod.fst :=
    lookup_eq_find (file.getD ⟨[]⟩) pKey
  unfold read
  simp only [hkey, hlookup]
  cases find (file.getD ⟨[]⟩) pKey with
  | none => rfl
  | some entry => simp [isCacheEntryValid, usable]

/-- A read of no entry or of one that is worth something leaves the file as it is. -/
theorem read_snd (hkey : ops.packFrom key = some pKey)
    (husable : ∀ entry, lookup file pKey = some entry → usable ops version type entry ≠ none) :
    (read ops version type key file).2 = file := by
  have hlookup : lookup file pKey = (find (file.getD ⟨[]⟩) pKey).map Prod.fst :=
    lookup_eq_find (file.getD ⟨[]⟩) pKey
  unfold read
  simp only [hkey]
  cases hfind : find (file.getD ⟨[]⟩) pKey with
  | none => rfl
  | some entry =>
    have hentry := husable entry.1 (by rw [hlookup, hfind]; rfl)
    simp only [isCacheEntryValid, usable, decide_eq_true_eq] at hentry ⊢
    rw [Option.isNone_eq_false_iff.mpr (Option.isSome_iff_ne_none.mpr hentry)]
    rfl

omit [DecidableEq Any] in
/-- The erased entry is in the place of all others. -/
theorem key_of_mem_erase {cache : TraceCache Any} {entry : TraceCache.Entry Any × ℕ}
    {copy : TraceCache.Entry Any} (h : copy ∈ (eraseCacheEntry cache entry).entires) :
    copy = entry.1 := by
  obtain ⟨iter, -, rfl⟩ := List.mem_map.mp h
  rfl

/-- A read never adds a key to the file. -/
theorem lookup_read_of_none (hkey : ops.packFrom key = some pKey) {other : Any}
    (hne : other ≠ pKey) (hnone : lookup file other = none) :
    lookup (read ops version type key file).2 other = none := by
  unfold read
  simp only [hkey]
  cases hfind : find (file.getD ⟨[]⟩) pKey with
  | none => exact hnone
  | some entry =>
    simp only
    generalize (if isCacheEntryValid version entry.1 then ops.unpackTo type entry.1.value
      else none) = result
    cases result with
    | some _ => exact hnone
    | none =>
      refine List.find?_eq_none.mpr fun copy hcopy => ?_
      rw [key_of_mem_erase hcopy, key_of_find hfind]
      simpa using hne.symm

/-- What a read leaves for its key was there before. -/
theorem lookup_of_read (hkey : ops.packFrom key = some pKey) {copy : TraceCache.Entry Any}
    (h : lookup (read ops version type key file).2 pKey = some copy) :
    lookup file pKey = some copy := by
  have hlookup : lookup file pKey = (find (file.getD ⟨[]⟩) pKey).map Prod.fst :=
    lookup_eq_find (file.getD ⟨[]⟩) pKey
  unfold read at h
  simp only [hkey] at h
  cases hfind : find (file.getD ⟨[]⟩) pKey with
  | none =>
    rw [hfind] at h
    exact h
  | some entry =>
    simp only [hfind] at h
    generalize (if isCacheEntryValid version entry.1 then ops.unpackTo type entry.1.value
      else none) = result at h
    cases result with
    | some _ => exact h
    | none =>
      rw [hlookup, hfind, key_of_mem_erase (List.mem_of_find?_eq_some h)]
      rfl

end Read

end TraceCacheLocal

end Octf.Trace
