import Octf.Storage.FileTraceSerializer

/-! The mapped window: a buffer for the next bytes always lies inside it, unless a file
operation fails. -/
namespace Octf.Storage
open Foundation

namespace FileTraceSerializer

variable {s : FileTraceSerializer} {offset size : ℕ}

/-- The window holds the given bytes of the file. -/
structure Covers (s : FileTraceSerializer) (offset size : ℕ) : Prop where
  mapped : s.isMapped = true
  begin : s.fileOffset ≤ offset
  within : offset + size ≤ s.fileOffset + s.size

/-- A mapped window is not empty and lies in the file; all that was written lies in the
file, and was written inside the window of its time. -/
structure Valid (s : FileTraceSerializer) : Prop where
  isOpen : s.isOpen = true
  pageSize : 0 < s.pageSize ∧ s.pageSize < 2 ^ 64
  window : s.isMapped = true → 0 < s.size ∧ s.fileOffset + s.size < 2 ^ 63 ∧
    s.fileOffset + s.size ≤ s.file.length
  data : s.dataOffset < 2 ^ 63
  dataInFile : s.dataOffset ≤ s.file.length
  writes : ∀ w ∈ s.writes, w.Inside

/-- In a window that is not empty the test of `isRemapNeeded` is exact up to empty buffers. -/
theorem covers_of_isRemapNeeded (hwindow : 0 < s.size ∧ s.fileOffset + s.size < 2 ^ 63)
    (hoffset : offset < 2 ^ 63) (hsize : size < 2 ^ 32)
    (h : s.isRemapNeeded offset size = false) : s.Covers offset size := by
  have hend : sub64 (add64 s.fileOffset s.size) 1 = s.fileOffset + s.size - 1 := by
    rw [add64_of_lt (by omega), sub64_of_le (by omega) (by omega)]
  unfold isRemapNeeded at h
  simp only [Nat.mod_eq_of_lt hsize, hend] at h
  split_ifs at h with hmapped hbegin hlast
  refine ⟨by simpa using hmapped, by omega, ?_⟩
  rcases Nat.eq_zero_or_pos size with rfl | hpos
  · omega
  · rw [add64_of_lt (by omega), sub64_of_le (by omega) (by omega)] at hlast
    omega

theorem isRemapNeeded_of_covers (hwindow : s.fileOffset + s.size < 2 ^ 63) (hpos : 0 < size)
    (hsize : size < 2 ^ 32) (h : s.Covers offset size) : s.isRemapNeeded offset size = false := by
  obtain ⟨hmapped, hbegin, hend⟩ := h
  have hlast : sub64 (add64 s.fileOffset s.size) 1 = s.fileOffset + s.size - 1 := by
    rw [add64_of_lt (by omega), sub64_of_le (by omega) (by omega)]
  have hlast' : sub64 (add64 offset size) 1 = offset + size - 1 := by
    rw [add64_of_lt (by omega), sub64_of_le (by omega) (by omega)]
  unfold isRemapNeeded
  simp only [Nat.mod_eq_of_lt hsize, hlast, hlast', hmapped, Bool.true_eq_false, if_false]
  rw [if_neg (by omega), if_neg (by omega)]

/-- Whole pages around the wanted bytes hold them, unless the sum of their sizes wraps; then
the window is empty or too long. -/
theorem placeWindow_bounds (hpage : 0 < s.pageSize ∧ s.pageSize < 2 ^ 64)
    (hoffset : offset < 2 ^ 63) (hpos : 0 < size) (hsize : size < 2 ^ 32)
    (hlen : 0 < toInt64 (s.placeWindow offset size).size) :
    (s.placeWindow offset size).fileOffset ≤ offset ∧
      offset + size ≤ (s.placeWindow offset size).fileOffset + (s.placeWindow offset size).size ∧
      0 < (s.placeWindow offset size).size ∧ (s.placeWindow offset size).size < 2 ^ 63 := by
  obtain ⟨hpage, hpage64⟩ := hpage
  simp only [placeWindow, Nat.mod_eq_of_lt hsize] at hlen ⊢
  generalize s.pageSize = P at *
  have hbase : offset / P * P + offset % P = offset := Nat.div_add_mod' offset P
  have hrest : offset % P < P := Nat.mod_lt offset hpage
  have hfile : mul64 (offset / P) P = offset / P * P := mul64_of_lt (by omega)
  generalize htotal : add64 (sub64 (add64 size P) 1) (offset % P) = total at *
  have hpages : total / P * P + total % P = total := Nat.div_add_mod' total P
  have hpages' : total % P < P := Nat.mod_lt total hpage
  have htotal64 : total < 2 ^ 64 := by
    rw [← htotal]
    exact Nat.mod_lt _ (Nat.two_pow_pos 64)
  have hsize' : mul64 (total / P) P = total / P * P := mul64_of_lt (by omega)
  rw [hsize'] at hlen
  rw [hfile, hsize']
  have hlen63 : total / P * P < 2 ^ 63 := lt_of_toInt64_nonneg (by omega) hlen.le
  rw [toInt64_of_lt hlen63] at hlen
  have hsum : total = (size + P - 1 + offset % P) % 2 ^ 64 := by
    rw [← htotal]
    unfold add64 sub64
    omega
  -- a window of no pages would be empty
  have hone : P ≤ total := by
    by_contra hless
    rw [Nat.div_eq_of_lt (not_le.mp hless), Nat.zero_mul] at hlen
    exact absurd hlen (lt_irrefl _)
  have hP63 : P < 2 ^ 63 := by
    have hdiv : 1 ≤ total / P := (Nat.one_le_div_iff hpage).mpr hone
    have hmul : 1 * P ≤ total / P * P := Nat.mul_le_mul_right P hdiv
    omega
  have hfits : size + P - 1 + offset % P < 2 ^ 64 := by
    by_contra hwrap
    have hwrapped : total = size + P - 1 + offset % P - 2 ^ 64 := by omega
    omega
  rw [Nat.mod_eq_of_lt hfits] at hsum
  omega

/-- The window of `remap` is allocated and mapped. -/
def Granted (ops : FileOps) (offset size : ℕ) (s : FileTraceSerializer) : Prop :=
  posix_fallocate ops (s.placeWindow offset size) = true ∧ ops.mmap s.windows = true

instance (ops : FileOps) (offset size : ℕ) (s : FileTraceSerializer) :
    Decidable (s.Granted ops offset size) :=
  inferInstanceAs (Decidable (_ ∧ _))

/-- A window that could be allocated and mapped holds the wanted bytes: the last test of
`remap` never fails. -/
theorem remap_granted {ops : FileOps} (hs : s.Valid) (hoffset : offset < 2 ^ 63) (hpos : 0 < size)
    (hsize : size < 2 ^ 32) (hgranted : s.Granted ops offset size) :
    ∃ s', s.remap ops offset size = (.ok (), s') ∧ s'.Valid ∧ s'.Covers offset size ∧
      s'.dataOffset = s.dataOffset ∧ s'.pageSize = s.pageSize ∧ s'.failed = s.failed ∧
      ∀ n ≤ s.file.length, s'.file.bytes.load 0 n = s.file.bytes.load 0 n := by
  obtain ⟨halloc, hmmap⟩ := hgranted
  have hmmap : ops.mmap (s.placeWindow offset size).windows = true := hmmap
  have hargs := halloc
  simp only [posix_fallocate, Bool.and_eq_true, decide_eq_true_eq] at hargs
  obtain ⟨⟨hbase, hlen, hend⟩, _⟩ := hargs
  obtain ⟨hlo, hhi, hwindow, hwindow63⟩ := placeWindow_bounds hs.pageSize hoffset hpos hsize hlen
  rw [toInt64_of_lt hwindow63, toInt64_of_lt (hlo.trans_lt hoffset)] at hend
  unfold remap
  simp only [halloc, if_true]
  generalize hplaced : s.placeWindow offset size = w at *
  generalize hmapped : ({ w with
    file := w.file.enlarge (w.fileOffset + w.size)
    windows := w.windows + 1
    isMapped := ops.mmap w.windows } : FileTraceSerializer) = s'
  have hcovers : s'.Covers offset size := by
    rw [← hmapped]
    exact ⟨hmmap, hlo, hhi⟩
  have hstay : s'.isRemapNeeded offset size = false := by
    apply isRemapNeeded_of_covers _ hpos hsize hcovers
    rw [← hmapped]
    simp only
    omega
  have hfile : w.file = s.file := by rw [← hplaced]; rfl
  have hvalid : s'.Valid := by
    rw [← hmapped]
    constructor
    · rw [← hplaced]; exact hs.isOpen
    · rw [← hplaced]; exact hs.pageSize
    · intro _
      simp only [File.enlarge]
      omega
    · rw [← hplaced]; exact hs.data
    · rw [← hplaced]
      exact le_max_of_le_left hs.dataInFile
    · rw [← hplaced]; exact hs.writes
  refine ⟨s', ?_, hvalid, hcovers, ?_, ?_, ?_, ?_⟩
  · simp only [hmmap, hstay, if_true, Bool.false_eq_true, if_false]
  · rw [← hmapped, ← hplaced]; rfl
  · rw [← hmapped, ← hplaced]; rfl
  · rw [← hmapped, ← hplaced]; rfl
  · intro n hn
    rw [← hmapped]
    apply Memory.load_congr
    intro i hi
    simp only [File.enlarge, hfile]
    rw [if_pos (by omega)]

/-- A window that is refused leaves the data and the rest of the file as they are, and none
mapped. -/
theorem remap_refused {ops : FileOps} (hs : s.Valid) (hrefused : ¬ s.Granted ops offset size) :
    ∃ message s', s.remap ops offset size = (.error message, s') ∧ s'.Valid ∧
      s'.dataOffset = s.dataOffset ∧ s'.failed = true ∧
      ∀ n ≤ s.file.length, s'.file.bytes.load 0 n = s.file.bytes.load 0 n := by
  unfold remap
  by_cases halloc : posix_fallocate ops (s.placeWindow offset size) = true
  · have hmmap : ¬ ops.mmap (s.placeWindow offset size).windows = true :=
      fun hmmap => hrefused ⟨halloc, hmmap⟩
    simp only [halloc, if_true, hmmap]
    refine ⟨_, _, rfl, ⟨hs.isOpen, hs.pageSize, fun hmapped => ?_, hs.data, ?_, hs.writes⟩, rfl,
      rfl, fun n hn => ?_⟩
    · exact absurd hmapped Bool.false_ne_true
    · exact le_max_of_le_left hs.dataInFile
    · apply Memory.load_congr
      intro i hi
      have hlt : 0 + i < (s.placeWindow offset size).file.length := by
        change 0 + i < s.file.length
        omega
      exact if_pos hlt
  · simp only [halloc]
    exact ⟨_, _, rfl, ⟨hs.isOpen, hs.pageSize, fun hmapped => absurd hmapped Bool.false_ne_true,
      hs.data, hs.dataInFile, hs.writes⟩, rfl, rfl, fun _ _ => rfl⟩

/-- Nothing has failed or will fail, and behind `n` more bytes the window is still in the
range of `off_t`. -/
def Roomy (ops : FileOps) (n : ℕ) (s : FileTraceSerializer) : Prop :=
  ops.Succeed ∧ s.failed = false ∧ s.dataOffset + n + 2 ^ 32 + 2 * s.pageSize ≤ 2 ^ 63

/-- The window is never refused while it stays in the range of `off_t`. -/
theorem getBuffer_ok {ops : FileOps} (hpage : 0 < s.pageSize) (hroom : s.Roomy ops 0)
    (hsize : size < 2 ^ 31) : (s.getBuffer ops size).2.failed = s.failed := by
  obtain ⟨hops, _, hroom⟩ := hroom
  have hremap : (s.remap ops s.dataOffset (max (MiBToBytes 1) size)).2.failed = s.failed := by
    have hmib : MiBToBytes 1 = 2 ^ 20 := rfl
    generalize hlarge : max (MiBToBytes 1) size = n
    have hn : 0 < n ∧ n < 2 ^ 32 := by omega
    have hbase : s.dataOffset / s.pageSize * s.pageSize ≤ s.dataOffset := Nat.div_mul_le_self _ _
    have hrest : s.dataOffset % s.pageSize < s.pageSize := Nat.mod_lt _ hpage
    have hsum : add64 (sub64 (add64 n s.pageSize) 1) (s.dataOffset % s.pageSize) =
        n + s.pageSize - 1 + s.dataOffset % s.pageSize := by
      rw [add64_of_lt (a := n) (by omega), sub64_of_le (by omega) (by omega),
        add64_of_lt (by omega)]
    generalize htotal : n + s.pageSize - 1 + s.dataOffset % s.pageSize = total at hsum
    have hpages : total / s.pageSize * s.pageSize ≤ total := Nat.div_mul_le_self _ _
    have hone : 1 * s.pageSize ≤ total / s.pageSize * s.pageSize :=
      Nat.mul_le_mul_right _ ((Nat.one_le_div_iff hpage).mpr (by omega))
    have halloc : posix_fallocate ops (s.placeWindow s.dataOffset n) = true := by
      simp only [posix_fallocate, placeWindow, Nat.mod_eq_of_lt hn.2, hsum, hops.fallocate,
        Bool.and_true, decide_eq_true_eq]
      rw [mul64_of_lt (by omega), mul64_of_lt (by omega), toInt64_of_lt (by omega),
        toInt64_of_lt (by omega)]
      omega
    unfold remap
    simp only [halloc, if_true, hops.mmap]
    split_ifs <;> rfl
  unfold getBuffer
  simp only
  split_ifs
  · generalize s.remap ops s.dataOffset (max (MiBToBytes 1) size) = result at *
    obtain ⟨_ | _, _⟩ := result <;> exact hremap
  · rfl

/-- The buffer at the data pointer needs a new window, and this is refused. -/
def Refused (ops : FileOps) (size : ℕ) (s : FileTraceSerializer) : Prop :=
  s.isRemapNeeded s.dataOffset size = true ∧
    ¬ s.Granted ops s.dataOffset (max (MiBToBytes 1) size)

instance (ops : FileOps) (size : ℕ) (s : FileTraceSerializer) : Decidable (s.Refused ops size) :=
  inferInstanceAs (Decidable (_ ∧ ¬ _))

/-- A refused buffer leaves the data as they are. -/
theorem getBuffer_refused {ops : FileOps} (hs : s.Valid) (h : s.Refused ops size) :
    ∃ message s', s.getBuffer ops size = (.error message, s') ∧ s'.Valid ∧
      s'.dataOffset = s.dataOffset ∧ s'.failed = true ∧
      s'.file.bytes.load 0 s.dataOffset = s.file.bytes.load 0 s.dataOffset := by
  obtain ⟨hremap, hrefused⟩ := h
  obtain ⟨message, s', hresult, hvalid, hoffset, hfailed, hload⟩ := remap_refused hs hrefused
  refine ⟨message, s', ?_, hvalid, hoffset, hfailed, hload _ hs.dataInFile⟩
  unfold getBuffer
  simp only [hremap, if_true, hresult]

/-- A buffer that is not refused is at the data pointer and inside the window. -/
theorem getBuffer_granted {ops : FileOps} (hs : s.Valid) (hsize : size < 2 ^ 31)
    (h : ¬ s.Refused ops size) :
    ∃ s', s.getBuffer ops size = (.ok (s.dataOffset - s'.fileOffset), s') ∧ s'.Valid ∧
      s'.Covers s.dataOffset size ∧ s'.dataOffset = s.dataOffset ∧ s'.pageSize = s.pageSize ∧
      s'.failed = s.failed ∧
      s'.file.bytes.load 0 s.dataOffset = s.file.bytes.load 0 s.dataOffset := by
  have hdata := hs.data
  have hpointer : ∀ {s' : FileTraceSerializer}, s'.Covers s.dataOffset size →
      sub64 s.dataOffset s'.fileOffset = s.dataOffset - s'.fileOffset := fun h =>
    sub64_of_le h.begin (by omega)
  by_cases hremap : s.isRemapNeeded s.dataOffset size = true
  · have hgranted : s.Granted ops s.dataOffset (max (MiBToBytes 1) size) := by
      by_contra hrefused
      exact h ⟨hremap, hrefused⟩
    have hmib : MiBToBytes 1 = 2 ^ 20 := rfl
    obtain ⟨s', hok, hvalid, hcovers, hoffset, hpage, hfailed, hload⟩ :=
      remap_granted hs hdata (by omega) (by omega) hgranted
    have hcovers' : s'.Covers s.dataOffset size :=
      ⟨hcovers.mapped, hcovers.begin, le_trans (by omega) hcovers.within⟩
    refine ⟨s', ?_, hvalid, hcovers', hoffset, hpage, hfailed, hload _ hs.dataInFile⟩
    simp only [getBuffer, hremap, if_true, hok, hpointer hcovers']
  · rw [Bool.not_eq_true] at hremap
    have hmapped : s.isMapped = true := by
      by_contra hnot
      simp [isRemapNeeded, hnot] at hremap
    obtain ⟨hwindow, hwindow63, _⟩ := hs.window hmapped
    have hcovers := covers_of_isRemapNeeded ⟨hwindow, hwindow63⟩ hdata (by omega) hremap
    refine ⟨s, ?_, hs, hcovers, rfl, rfl, rfl, rfl⟩
    simp only [getBuffer, hremap, Bool.false_eq_true, if_false, hpointer hcovers]

/-- A buffer for up to `2 ^ 31` bytes is at the data pointer and inside the window. -/
theorem getBuffer_spec (ops : FileOps) (hs : s.Valid) (hsize : size < 2 ^ 31) :
    ((s.getBuffer ops size).2.failed = true ∧ ¬ s.Roomy ops 0) ∨
      ∃ s', s.getBuffer ops size = (.ok (s.dataOffset - s'.fileOffset), s') ∧ s'.Valid ∧
        s'.Covers s.dataOffset size ∧ s'.dataOffset = s.dataOffset ∧ s'.pageSize = s.pageSize ∧
        s'.failed = s.failed ∧
        s'.file.bytes.load 0 s.dataOffset = s.file.bytes.load 0 s.dataOffset := by
  by_cases hrefused : s.Refused ops size
  · obtain ⟨message, s', hresult, -, -, hfailed, -⟩ := getBuffer_refused hs hrefused
    have hfail : (s.getBuffer ops size).2.failed = true := by
      rw [hresult]
      exact hfailed
    refine .inl ⟨hfail, fun hroom => ?_⟩
    rw [getBuffer_ok hs.pageSize.1 hroom hsize, hroom.2.1] at hfail
    exact absurd hfail Bool.false_ne_true
  · exact .inr (getBuffer_granted hs hsize hrefused)

/-- Bytes written at the data pointer, inside the window, are appended to the data. -/
theorem append_spec (hs : s.Valid) {bytes : List UInt8}
    (hcovers : s.Covers s.dataOffset bytes.length) :
    ((s.write (s.dataOffset - s.fileOffset) bytes).moveDataPointer bytes.length).Valid ∧
      ((s.write (s.dataOffset - s.fileOffset) bytes).moveDataPointer bytes.length).dataOffset =
        s.dataOffset + bytes.length ∧
      ((s.write (s.dataOffset - s.fileOffset) bytes).moveDataPointer bytes.length).file.bytes.load 0
        (s.dataOffset + bytes.length) = s.file.bytes.load 0 s.dataOffset ++ bytes := by
  obtain ⟨hmapped, hbegin, hend⟩ := hcovers
  obtain ⟨hwindow, hwindow63, hfile⟩ := hs.window hmapped
  have hoffset : add64 s.dataOffset bytes.length = s.dataOffset + bytes.length :=
    add64_of_lt (by omega)
  have hplace : s.fileOffset + (s.dataOffset - s.fileOffset) = s.dataOffset := by omega
  refine ⟨?_, hoffset, ?_⟩
  · constructor
    · exact hs.isOpen
    · exact hs.pageSize
    · exact hs.window
    · simp only [moveDataPointer, write, hoffset]
      omega
    · simp only [moveDataPointer, write, hoffset]
      omega
    · intro w hw
      rcases List.mem_append.mp hw with hw | hw
      · exact hs.writes w hw
      · rw [List.mem_singleton.mp hw]
        unfold Write.Inside
        simp only
        omega
  · simp only [moveDataPointer, write, hplace]
    exact Memory.load_store_append ..

end FileTraceSerializer

end Octf.Storage
