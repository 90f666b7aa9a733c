import Octf.Extension.TraceExtensionSet
import Mathlib.Algebra.Ring.Nat

/-! Reading a set of extensions to its end merges them: every record comes once, in the order of
the sequence ids and of the names within one id. -/
namespace Octf.Extension
open Foundation

variable {E : Type}

/-- A record as it is read, with the id announced before. -/
structure Row (E : Type) where
  name : String
  announced : ℕ
  sid : ℕ
  ext : E

/-- The order of the records. -/
def Row.key (row : Row E) : ℕ ×ₗ String := toLex (row.sid, row.name)

namespace TraceExtensionSet

def next (s : TraceExtensionSet E) : Except String (Row E × TraceExtensionSet E) := do
  let name ← s.getName
  let (announced, s) ← s.getNextSid
  let (sid, ext, s) ← s.read
  .ok (⟨name, announced, sid, ext⟩, s)

/-- Read while there is a next record, in at most the given rounds. -/
def iterate : (rounds : ℕ) → TraceExtensionSet E → Except String (List (Row E))
  | 0, _ => .error "running"
  | rounds + 1, s =>
    if s.hasNext then do
      let (row, s) ← s.next
      let rows ← iterate rounds s
      .ok (row :: rows)
    else .ok []

def addAll (exts : List (TraceExtension E)) : Except String (TraceExtensionSet E) :=
  exts.foldlM (fun s ext => s.addTraceExtension ext) new

end TraceExtensionSet

/-! ### What the entries hold -/

/-- An entry's extension: the record whose id has been read ahead, and the records behind it. -/
structure Pending (E : Type) where
  name : String
  sid : ℕ
  ext : E
  rest : List (ℕ × E)

/-- The file of some records. -/
def encode (records : List (ℕ × E)) : List (Message E) :=
  records.flatMap fun record => [.sid record.1, .content record.2]

namespace Pending

def entry (p : Pending E) : TraceExtensionEntry E :=
  ⟨⟨p.name, ⟨.content p.ext :: encode p.rest, p.sid, true⟩⟩, p.sid⟩

def key (p : Pending E) : ℕ ×ₗ String := toLex (p.sid, p.name)

/-- The records still to be read. -/
def rows (p : Pending E) : List (Row E) :=
  ((p.sid, p.ext) :: p.rest).map fun record => ⟨p.name, record.1, record.1, record.2⟩

/-- The records are in the order of their ids. -/
def Sorted (p : Pending E) : Prop :=
  ((p.sid, p.ext) :: p.rest).Pairwise fun a b => a.1 ≤ b.1

/-- What is pending after the first record has been read. -/
def tail (p : Pending E) : Option (Pending E) :=
  match p.rest with
  | [] => none
  | (sid, ext) :: rest => some ⟨p.name, sid, ext, rest⟩

end Pending

def entryKey (entry : TraceExtensionEntry E) : ℕ ×ₗ String := toLex (entry.sid, entry.ext.name)

theorem lt_eq_byKey :
    (TraceExtensionEntry.lt : TraceExtensionEntry E → TraceExtensionEntry E → Bool) =
      OrderedSet.byKey entryKey := by
  funext a b
  unfold TraceExtensionEntry.lt OrderedSet.byKey entryKey
  rw [Bool.eq_iff_iff]
  split_ifs with hsid
  · simp [Prod.Lex.toLex_lt_toLex, hsid]
  · rw [not_not] at hsid
    simp [Prod.Lex.toLex_lt_toLex, hsid]

/-- The set holds what is pending, in the order of the next records. -/
structure Holds (pending : List (Pending E)) (s : TraceExtensionSet E) : Prop where
  set : s.set = pending.map Pending.entry
  ordered : pending.Pairwise fun p q => p.key < q.key
  names : (pending.map Pending.name).Nodup
  sorted : ∀ p ∈ pending, p.Sorted

/-- An extension with a new name finds its place. -/
theorem Holds.insert {pending : List (Pending E)} {s : TraceExtensionSet E} (h : Holds pending s)
    (p : Pending E) (hname : ∀ q ∈ pending, q.name ≠ p.name) (hp : p.Sorted) :
    ∃ pending', pending'.Perm (p :: pending) ∧
      Holds pending' ⟨OrderedSet.insert TraceExtensionEntry.lt p.entry s.set⟩ := by
  obtain ⟨before, after, rfl, hbefore, hafter⟩ :=
    OrderedSet.split_byKey Pending.key p h.ordered
  have hne : ∀ q ∈ before ++ after, q.key ≠ p.key := by
    intro q hq heq
    exact hname q hq (Prod.mk.inj (toLex.injective heq)).2
  have hafter' : ∀ q ∈ after, p.key < q.key := fun q hq =>
    lt_of_le_of_ne (hafter q hq) (hne q (List.mem_append_right _ hq)).symm
  have hinsert : OrderedSet.insert TraceExtensionEntry.lt p.entry s.set =
      (before ++ p :: after).map Pending.entry := by
    rw [h.set, List.map_append, List.map_append, List.map_cons, lt_eq_byKey]
    refine OrderedSet.insert_eq ?_ ?_
    · intro entry hentry
      obtain ⟨q, hq, rfl⟩ := List.mem_map.mp hentry
      exact decide_eq_true (hbefore q hq)
    · intro entry hentry
      obtain ⟨q, hq, rfl⟩ := List.mem_map.mp (List.mem_of_mem_head? hentry)
      exact ⟨decide_eq_false (not_lt.mpr (hafter' q hq).le), decide_eq_true (hafter' q hq)⟩
  have hperm : (before ++ p :: after).Perm (p :: (before ++ after)) := List.perm_middle
  refine ⟨before ++ p :: after, hperm, ⟨hinsert, ?_, ?_, ?_⟩⟩
  · obtain ⟨h₁, h₂, h₃⟩ := List.pairwise_append.mp h.ordered
    refine List.pairwise_append.mpr ⟨h₁, List.pairwise_cons.mpr ⟨hafter', h₂⟩, ?_⟩
    intro q hq r hr
    rcases List.mem_cons.mp hr with rfl | hr
    · exact hbefore q hq
    · exact h₃ q hq r hr
  · rw [(hperm.map Pending.name).nodup_iff, List.map_cons, List.nodup_cons]
    refine ⟨fun hmem => ?_, h.names⟩
    obtain ⟨q, hq, heq⟩ := List.mem_map.mp hmem
    exact hname q hq heq
  · intro q hq
    rcases List.mem_cons.mp (hperm.mem_iff.mp hq) with rfl | hq
    · exact hp
    · exact h.sorted q hq

@[simp] theorem bind_ok {α β : Type} (a : α) (f : α → Except String β) :
    (Except.ok a >>= f) = f a := rfl

theorem Pending.sorted_of_tail {p q : Pending E} (hp : p.Sorted) (h : p.tail = some q) :
    q.Sorted ∧ q.name = p.name ∧ p.sid ≤ q.sid ∧
      p.rows = ⟨p.name, p.sid, p.sid, p.ext⟩ :: q.rows := by
  unfold Pending.Sorted at hp
  unfold Pending.tail at h
  unfold Pending.rows
  cases hrest : p.rest with
  | nil => rw [hrest] at h; cases h
  | cons record rest =>
    rw [hrest] at h hp
    obtain rfl := Option.some.inj h
    obtain ⟨hfirst, hrest'⟩ := List.pairwise_cons.mp hp
    exact ⟨hrest', rfl, hfirst _ List.mem_cons_self, rfl⟩

theorem Pending.rows_of_tail {p : Pending E} (h : p.tail = none) :
    p.rows = [⟨p.name, p.sid, p.sid, p.ext⟩] := by
  unfold Pending.tail at h
  unfold Pending.rows
  cases hrest : p.rest with
  | nil => rfl
  | cons record rest => rw [hrest] at h; cases h

/-- The first pending record is read, and its extension put back if it has another. -/
theorem Holds.next {p : Pending E} {pending : List (Pending E)} {s : TraceExtensionSet E}
    (h : Holds (p :: pending) s) :
    ∃ s' pending', s.next = .ok (⟨p.name, p.sid, p.sid, p.ext⟩, s') ∧ Holds pending' s' ∧
      pending'.Perm (p.tail.toList ++ pending) := by
  obtain ⟨hfirst, hordered⟩ := List.pairwise_cons.mp h.ordered
  obtain ⟨hname, hnames⟩ := List.nodup_cons.mp h.names
  have hrest : Holds pending ⟨pending.map Pending.entry⟩ :=
    ⟨rfl, hordered, hnames, fun q hq => h.sorted q (List.mem_cons_of_mem p hq)⟩
  have hset : s.set = p.entry :: pending.map Pending.entry := h.set
  have hname' : s.getName = .ok p.name := by rw [TraceExtensionSet.getName, hset]; rfl
  have hsid : s.getNextSid = .ok (p.sid, ⟨p.entry :: pending.map Pending.entry⟩) := by
    rw [TraceExtensionSet.getNextSid, hset]
    rfl
  cases hp : p.rest with
  | nil =>
    refine ⟨⟨pending.map Pending.entry⟩, pending, ?_, hrest, by rw [Pending.tail, hp]; rfl⟩
    rw [TraceExtensionSet.next, hname', bind_ok, hsid, bind_ok]
    unfold TraceExtensionSet.read Pending.entry
    rw [hp]
    rfl
  | cons record rest =>
    have htail : p.tail = some ⟨p.name, record.1, record.2, rest⟩ := by rw [Pending.tail, hp]
    obtain ⟨hsorted, -, -, -⟩ :=
      Pending.sorted_of_tail (h.sorted p List.mem_cons_self) htail
    obtain ⟨pending', hperm, hholds⟩ := hrest.insert ⟨p.name, record.1, record.2, rest⟩
      (fun q hq heq => hname (heq ▸ List.mem_map_of_mem hq)) hsorted
    refine ⟨_, pending', ?_, hholds, by rw [htail]; exact hperm⟩
    rw [TraceExtensionSet.next, hname', bind_ok, hsid, bind_ok]
    unfold TraceExtensionSet.read Pending.entry
    rw [hp]
    rfl

/-- The rows of what is pending, merged. -/
structure Merged (pending : List (Pending E)) (rows : List (Row E)) : Prop where
  ordered : rows.Pairwise fun a b => a.key ≤ b.key
  own : ∀ p ∈ pending, rows.filter (fun row => row.name = p.name) = p.rows
  only : ∀ row ∈ rows, ∃ p ∈ pending, row ∈ p.rows

theorem Pending.name_of_mem_rows {p : Pending E} {row : Row E} (h : row ∈ p.rows) :
    row.name = p.name ∧ row.announced = row.sid := by
  obtain ⟨record, -, rfl⟩ := List.mem_map.mp h
  exact ⟨rfl, rfl⟩

theorem Pending.key_le_of_mem_rows {p : Pending E} (hp : p.Sorted) {row : Row E}
    (h : row ∈ p.rows) : p.key ≤ row.key := by
  obtain ⟨record, hrecord, rfl⟩ := List.mem_map.mp h
  have hsid : p.sid ≤ record.1 := by
    rcases List.mem_cons.mp hrecord with rfl | hrecord
    · exact le_rfl
    · exact (List.pairwise_cons.mp hp).1 record hrecord
  rw [Pending.key, Row.key, Prod.Lex.toLex_le_toLex]
  rcases hsid.lt_or_eq with hlt | heq
  · exact Or.inl hlt
  · exact Or.inr ⟨heq, le_rfl⟩

/-- The first record before a merge of the others is a merge of all. -/
theorem Merged.cons {p : Pending E} {pending pending' : List (Pending E)}
    {s : TraceExtensionSet E} (h : Holds (p :: pending) s)
    (hperm : pending'.Perm (p.tail.toList ++ pending)) {rows : List (Row E)}
    (hrows : Merged pending' rows) :
    Merged (p :: pending) (⟨p.name, p.sid, p.sid, p.ext⟩ :: rows) := by
  have hp := h.sorted p List.mem_cons_self
  obtain ⟨hfirst, -⟩ := List.pairwise_cons.mp h.ordered
  obtain ⟨hname, -⟩ := List.nodup_cons.mp h.names
  have htail : ∀ q ∈ p.tail, q.Sorted ∧ q.name = p.name ∧ p.sid ≤ q.sid ∧
      p.rows = ⟨p.name, p.sid, p.sid, p.ext⟩ :: q.rows := fun q hq =>
    Pending.sorted_of_tail hp hq
  have hcases : ∀ q ∈ pending', (p.tail = some q) ∨ q ∈ pending := by
    intro q hq
    rcases List.mem_append.mp (hperm.mem_iff.mp hq) with hq | hq
    · exact Or.inl (Option.mem_toList.mp hq)
    · exact Or.inr hq
  refine ⟨List.pairwise_cons.mpr ⟨fun row hrow => ?_, hrows.ordered⟩, fun q hq => ?_,
    fun row hrow => ?_⟩
  · obtain ⟨q, hq, hmem⟩ := hrows.only row hrow
    rcases hcases q hq with hq | hq
    · obtain ⟨hsorted, hsame, hle, -⟩ := htail q hq
      refine le_trans ?_ (Pending.key_le_of_mem_rows hsorted hmem)
      rw [Row.key, Pending.key, Prod.Lex.toLex_le_toLex, hsame]
      rcases hle.lt_or_eq with hlt | heq
      · exact Or.inl hlt
      · exact Or.inr ⟨heq, le_rfl⟩
    · exact (hfirst q hq).le.trans (Pending.key_le_of_mem_rows
        (h.sorted q (List.mem_cons_of_mem p hq)) hmem)
  · rcases List.mem_cons.mp hq with rfl | hq
    · rw [List.filter_cons_of_pos (by simp)]
      cases hnext : q.tail with
      | none =>
        have hnone : rows.filter (fun row => row.name = q.name) = [] := by
          refine List.filter_eq_nil_iff.mpr fun row hrow => ?_
          obtain ⟨r, hr, hmem⟩ := hrows.only row hrow
          rcases hcases r hr with hr | hr
          · rw [hnext] at hr
            cases hr
          · rw [(Pending.name_of_mem_rows hmem).1, decide_eq_true_eq]
            exact fun heq => hname (heq ▸ List.mem_map_of_mem hr)
        rw [hnone, Pending.rows_of_tail hnext]
      | some r =>
        obtain ⟨-, hsame, -, hall⟩ := htail r hnext
        have hr : r ∈ pending' := hperm.mem_iff.mpr (by simp [hnext])
        rw [hall, ← hrows.own r hr, hsame]
    · have hne : ¬ p.name = q.name := fun heq => hname (heq ▸ List.mem_map_of_mem hq)
      rw [List.filter_cons_of_neg (by simpa using hne)]
      exact hrows.own q (hperm.mem_iff.mpr (List.mem_append_right _ hq))
  · rcases List.mem_cons.mp hrow with rfl | hrow
    · exact ⟨p, List.mem_cons_self, List.mem_cons_self⟩
    · obtain ⟨q, hq, hmem⟩ := hrows.only row hrow
      rcases hcases q hq with hq | hq
      · obtain ⟨-, -, -, hall⟩ := htail q hq
        exact ⟨p, List.mem_cons_self, hall ▸ List.mem_cons_of_mem _ hmem⟩
      · exact ⟨q, List.mem_cons_of_mem p hq, hmem⟩

/-- The number of pending records. -/
def remaining (pending : List (Pending E)) : ℕ := (pending.map fun p => p.rows.length).sum

theorem remaining_cons {p : Pending E} {pending pending' : List (Pending E)}
    (hp : p.Sorted) (hperm : pending'.Perm (p.tail.toList ++ pending)) :
    remaining (p :: pending) = remaining pending' + 1 := by
  have hsum : remaining pending' = remaining p.tail.toList + remaining pending := by
    rw [remaining, (hperm.map _).sum_nat, List.map_append, List.sum_append_nat]
    rfl
  have hrows : p.rows.length = remaining p.tail.toList + 1 := by
    cases htail : p.tail with
    | none => rw [Pending.rows_of_tail htail]; rfl
    | some q => rw [(Pending.sorted_of_tail hp htail).2.2.2]; rfl
  have hcons : remaining (p :: pending) = p.rows.length + remaining pending := List.sum_cons
  omega

/-- Reading the set to its end gives these rows. -/
inductive Reads : TraceExtensionSet E → List (Row E) → Prop where
  | done {s : TraceExtensionSet E} (hend : s.hasNext = false) : Reads s []
  | next {s s' : TraceExtensionSet E} {row : Row E} {rows : List (Row E)}
      (hmore : s.hasNext = true) (hnext : s.next = .ok (row, s')) (hrest : Reads s' rows) :
      Reads s (row :: rows)

/-- What is pending is read as its merge. -/
theorem Holds.reads {pending : List (Pending E)} {s : TraceExtensionSet E}
    (h : Holds pending s) : ∃ rows, Merged pending rows ∧ Reads s rows := by
  generalize hbound : remaining pending = bound
  induction bound generalizing pending s with
  | zero =>
    cases pending with
    | nil =>
      have hset : s.set = [] := h.set
      exact ⟨[], ⟨List.Pairwise.nil, by simp, by simp⟩,
        .done (by simp [TraceExtensionSet.hasNext, hset])⟩
    | cons p pending => simp [remaining, Pending.rows] at hbound
  | succ bound ih =>
    cases pending with
    | nil => cases hbound
    | cons p pending =>
      obtain ⟨s', pending', hnext, hholds, hperm⟩ := h.next
      have hless := remaining_cons (h.sorted p List.mem_cons_self) hperm
      obtain ⟨rows, hmerged, hreads⟩ := ih hholds (by omega)
      have hmore : s.hasNext = true := by simp [TraceExtensionSet.hasNext, h.set]
      exact ⟨⟨p.name, p.sid, p.sid, p.ext⟩ :: rows, hmerged.cons h hperm,
        .next hmore hnext hreads⟩

/-- With enough rounds the loop returns the rows. -/
theorem Reads.iterate {s : TraceExtensionSet E} {rows : List (Row E)} (h : Reads s rows) :
    ∀ rounds, rows.length < rounds → s.iterate rounds = .ok rows := by
  induction h with
  | done hend =>
    intro rounds hrounds
    obtain ⟨rounds, rfl⟩ := Nat.exists_eq_succ_of_ne_zero (Nat.ne_zero_of_lt hrounds)
    simp [TraceExtensionSet.iterate, hend]
  | next hmore hnext _ ih =>
    intro rounds hrounds
    obtain ⟨rounds, rfl⟩ := Nat.exists_eq_succ_of_ne_zero (Nat.ne_zero_of_lt hrounds)
    rw [TraceExtensionSet.iterate, if_pos hmore, hnext, bind_ok]
    simp only [ih rounds (Nat.lt_of_succ_lt_succ hrounds), bind_ok]

/-! ### Built extensions -/

/-- An extension that has been built: its writer has taken the records. -/
structure Built (E : Type) where
  name : String
  records : List (ℕ × E)
  writer : Writer E
  written : Writer.new.writeAll records = .ok writer

namespace Built

/-- The extension, opened for reading. -/
def open' (b : Built E) : TraceExtension E := ⟨b.name, .init b.writer.file⟩

/-- The records of the extension as they are to be read. -/
def rows (b : Built E) : List (Row E) :=
  b.records.map fun record => ⟨b.name, record.1, record.1, record.2⟩

/-- Nothing is pending of an empty extension. -/
def pending (b : Built E) : Option (Pending E) :=
  match b.records with
  | [] => none
  | (sid, ext) :: rest => some ⟨b.name, sid, ext, rest⟩

end Built

/-- The writer takes the records in the order of their ids and stores all of them. -/
theorem writeAll_spec {records : List (ℕ × E)} {w w' : Writer E}
    (h : w.writeAll records = .ok w') :
    w'.file = w.file ++ encode records ∧ (∀ record ∈ records, w.lastSid ≤ record.1) ∧
      records.Pairwise fun a b => a.1 ≤ b.1 := by
  induction records generalizing w with
  | nil =>
    obtain rfl := Except.ok.inj h
    exact ⟨by simp [encode], by simp, List.Pairwise.nil⟩
  | cons record records ih =>
    unfold Writer.writeAll Writer.write at h
    split_ifs at h with hless
    · cases h
    · obtain ⟨hfile, hlast, hsorted⟩ := ih h
      refine ⟨?_, ?_, List.pairwise_cons.mpr ⟨hlast, hsorted⟩⟩
      · rw [hfile]
        simp [encode]
      · intro other hother
        rcases List.mem_cons.mp hother with rfl | hother
        · exact not_lt.mp hless
        · exact (not_lt.mp hless).trans (hlast other hother)

theorem Holds.add {pending : List (Pending E)} {s : TraceExtensionSet E} (h : Holds pending s)
    (b : Built E) (hname : ∀ q ∈ pending, q.name ≠ b.name) :
    ∃ s' pending', s.addTraceExtension b.open' = .ok s' ∧ Holds pending' s' ∧
      pending'.Perm (b.pending.toList ++ pending) := by
  obtain ⟨hfile, -, hsorted⟩ := writeAll_spec b.written
  have hfile' : b.writer.file = encode b.records := hfile
  have hopen : b.open' = ⟨b.name, .init (encode b.records)⟩ := by rw [Built.open', hfile']
  rw [hopen]
  unfold Built.pending
  cases hrecords : b.records with
  | nil => exact ⟨s, pending, rfl, h, List.Perm.refl _⟩
  | cons record rest =>
    rw [hrecords] at hsorted
    obtain ⟨pending', hperm, hholds⟩ := h.insert ⟨b.name, record.1, record.2, rest⟩ hname hsorted
    exact ⟨_, pending', rfl, hholds, hperm⟩

theorem Holds.addAll {pending : List (Pending E)} {s : TraceExtensionSet E} (h : Holds pending s)
    (exts : List (Built E)) (hnames : (exts.map Built.name).Nodup)
    (hnew : ∀ q ∈ pending, ∀ b ∈ exts, q.name ≠ b.name) :
    ∃ s' pending', (exts.map Built.open').foldlM (fun s ext => s.addTraceExtension ext) s =
        .ok s' ∧ Holds pending' s' ∧ pending'.Perm (exts.filterMap Built.pending ++ pending) := by
  induction exts generalizing pending s with
  | nil => exact ⟨s, pending, rfl, h, List.Perm.refl _⟩
  | cons b exts ih =>
    obtain ⟨hb, hnames'⟩ := List.nodup_cons.mp hnames
    obtain ⟨s₁, pending₁, hok₁, hholds₁, hperm₁⟩ :=
      h.add b fun q hq => hnew q hq b List.mem_cons_self
    have hnew₁ : ∀ q ∈ pending₁, ∀ b' ∈ exts, q.name ≠ b'.name := by
      intro q hq b' hb'
      rcases List.mem_append.mp (hperm₁.mem_iff.mp hq) with hq | hq
      · have hsame : q.name = b.name := by
          unfold Built.pending at hq
          cases hrecords : b.records with
          | nil => rw [hrecords] at hq; cases hq
          | cons record rest =>
            rw [hrecords] at hq
            obtain rfl := Option.some.inj (Option.mem_toList.mp hq)
            rfl
        rw [hsame]
        exact fun heq => hb (heq ▸ List.mem_map_of_mem hb')
      · exact hnew q hq b' (List.mem_cons_of_mem b hb')
    obtain ⟨s', pending', hok', hholds', hperm'⟩ := ih hholds₁ hnames' hnew₁
    refine ⟨s', pending', ?_, hholds', hperm'.trans ?_⟩
    · rw [List.map_cons, List.foldlM_cons, hok₁, bind_ok, hok']
    · rw [List.filterMap_cons]
      refine (hperm₁.append_left _).trans ?_
      cases b.pending with
      | none => exact List.Perm.refl _
      | some p => exact List.perm_middle

theorem rows_of_pending {b : Built E} {p : Pending E} (h : b.pending = some p) :
    p.name = b.name ∧ p.rows = b.rows := by
  unfold Built.pending at h
  unfold Built.rows
  cases hrecords : b.records with
  | nil => rw [hrecords] at h; cases h
  | cons record rest =>
    rw [hrecords] at h
    obtain rfl := Option.some.inj h
    exact ⟨rfl, rfl⟩

/-- The rows of the extensions, merged. -/
structure MergedFiles (exts : List (Built E)) (rows : List (Row E)) : Prop where
  own : ∀ b ∈ exts, rows.filter (fun row => row.name = b.name) = b.rows
  only : ∀ row ∈ rows, ∃ b ∈ exts, row ∈ b.rows
  ordered : rows.Pairwise fun a b => a.key ≤ b.key
  announced : ∀ row ∈ rows, row.announced = row.sid

/-- A set of built extensions is read as their merge. -/
theorem reads_built (exts : List (Built E)) (hnames : (exts.map Built.name).Nodup) :
    ∃ s rows, TraceExtensionSet.addAll (exts.map Built.open') = .ok s ∧ Reads s rows ∧
      MergedFiles exts rows := by
  have hnew : Holds [] (TraceExtensionSet.new : TraceExtensionSet E) :=
    ⟨rfl, List.Pairwise.nil, List.nodup_nil, by simp⟩
  obtain ⟨s, pending, hok, hholds, hperm⟩ := hnew.addAll exts hnames (by simp)
  rw [List.append_nil] at hperm
  obtain ⟨rows, hmerged, hreads⟩ := hholds.reads
  have honly : ∀ row ∈ rows, ∃ b ∈ exts, row ∈ b.rows := by
    intro row hrow
    obtain ⟨p, hp, hmem⟩ := hmerged.only row hrow
    obtain ⟨b, hb, hpending⟩ := List.mem_filterMap.mp (hperm.mem_iff.mp hp)
    exact ⟨b, hb, (rows_of_pending hpending).2 ▸ hmem⟩
  have hrow : ∀ {b : Built E} {row : Row E}, row ∈ b.rows →
      row.name = b.name ∧ row.announced = row.sid := by
    intro b row hmem
    obtain ⟨record, -, rfl⟩ := List.mem_map.mp hmem
    exact ⟨rfl, rfl⟩
  refine ⟨s, rows, hok, hreads, fun b hb => ?_, honly, hmerged.ordered, fun row hmem => ?_⟩
  · cases hpending : b.pending with
    | none =>
      have hempty : b.rows = [] := by
        unfold Built.pending at hpending
        unfold Built.rows
        cases hrecords : b.records with
        | nil => rfl
        | cons record rest => rw [hrecords] at hpending; cases hpending
      rw [hempty]
      refine List.filter_eq_nil_iff.mpr fun row hmem hname => ?_
      obtain ⟨b', hb', hmem'⟩ := honly row hmem
      have hsame : b'.name = b.name := (hrow hmem').1.symm.trans (of_decide_eq_true hname)
      rw [List.inj_on_of_nodup_map hnames hb' hb hsame, hempty] at hmem'
      exact absurd hmem' List.not_mem_nil
    | some p =>
      obtain ⟨hname, hrows'⟩ := rows_of_pending hpending
      have hp : p ∈ pending := hperm.mem_iff.mpr (List.mem_filterMap.mpr ⟨b, hb, hpending⟩)
      rw [← hrows', ← hname]
      exact hmerged.own p hp
  · obtain ⟨b, -, hmem'⟩ := honly row hmem
    exact (hrow hmem').2

/-- A set of built extensions with distinct names, in whatever order they were added, is read to
its end, every record once and under its extension's name, in the order of the ids and of the
names, and every id is announced. -/
theorem iterate_merges (exts : List (Built E)) (hnames : (exts.map Built.name).Nodup) :
    ∃ s rows, TraceExtensionSet.addAll (exts.map Built.open') = .ok s ∧
      (∃ bound, ∀ rounds, bound < rounds → s.iterate rounds = .ok rows) ∧
      (∀ b ∈ exts, rows.filter (fun row => row.name = b.name) = b.rows) ∧
      (∀ row ∈ rows, ∃ b ∈ exts, row ∈ b.rows) ∧
      (rows.Pairwise fun a b => a.key ≤ b.key) ∧ ∀ row ∈ rows, row.announced = row.sid := by
  obtain ⟨s, rows, hok, hreads, hmerged⟩ := reads_built exts hnames
  exact ⟨s, rows, hok, ⟨_, hreads.iterate⟩, hmerged.own, hmerged.only, hmerged.ordered,
    hmerged.announced⟩

/-- Two extensions with a common id. -/
def lru (name : String) (sids : List ℕ) (writer : Writer Bool)
    (written : Writer.new.writeAll (sids.map fun sid => (sid, true)) = .ok writer) : Built Bool :=
  ⟨name, sids.map fun sid => (sid, true), writer, written⟩

theorem iterate_merges_lru : ∃ s rows,
    TraceExtensionSet.addAll ([lru "LRU10" [1, 3] _ rfl, lru "LRU5" [1, 2] _ rfl].map
      Built.open') = .ok s ∧
      (∃ bound, ∀ rounds, bound < rounds → s.iterate rounds = .ok rows) ∧
      (∀ b ∈ [lru "LRU10" [1, 3] _ rfl, lru "LRU5" [1, 2] _ rfl],
        rows.filter (fun row => row.name = b.name) = b.rows) ∧
      (∀ row ∈ rows, ∃ b ∈ [lru "LRU10" [1, 3] _ rfl, lru "LRU5" [1, 2] _ rfl], row ∈ b.rows) ∧
      (rows.Pairwise fun a b => a.key ≤ b.key) ∧ ∀ row ∈ rows, row.announced = row.sid :=
  iterate_merges _ (by decide)

end Octf.Extension
