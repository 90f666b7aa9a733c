import Mathlib.Data.List.DropRight
import Mathlib.Data.List.Nodup
import Mathlib.Logic.Relation

/-! A tree of files as system calls see it: directories with named entries, symbolic links, the
resolution of paths and the removal of entries. -/
namespace Foundation

/-- A part of a path between slashes. -/
inductive Component where
  | empty
  | current
  | parent
  | name (n : String)
  deriving DecidableEq

/-- A path, split at its slashes: an absolute path has an empty part in front, and a slash at the
end an empty part behind it. -/
abbrev Pathname := List Component

inductive FileKind where
  | directory
  | link (target : Pathname)
  | other
  deriving DecidableEq

/-- Files are known by their inodes. Every directory has one entry at most, in its parent. -/
structure FileTree where
  root : ℕ
  kind : ℕ → FileKind
  parent : ℕ → ℕ
  entries : ℕ → List (String × ℕ)
  kind_eq : ∀ d, entries d ≠ [] → kind d = .directory
  names_nodup : ∀ d, ((entries d).map Prod.fst).Nodup
  parent_eq : ∀ d, ∀ e ∈ entries d, kind e.2 = .directory → parent e.2 = d
  name_eq : ∀ d, ∀ e ∈ entries d, ∀ e' ∈ entries d, kind e.2 = .directory → e.2 = e'.2 → e = e'
  acyclic : ∃ depth : ℕ → ℕ, ∀ d, ∀ e ∈ entries d, kind e.2 = .directory → depth d < depth e.2

def Component.isEmpty (c : Component) : Bool := decide (c = .empty)

namespace FileTree

/-- The inode of a name in a directory. -/
def lookup (d : ℕ) (n : String) (t : FileTree) : Option ℕ := (t.entries d).lookup n

/-- The entries of a directory, one of them without a name. -/
def without (d : ℕ) (n : String) (t : FileTree) (x : ℕ) : List (String × ℕ) :=
  if x = d then (t.entries x).filter fun e => e.1 ≠ n else t.entries x

theorem without_sublist (d : ℕ) (n : String) (t : FileTree) (x : ℕ) :
    (t.without d n x).Sublist (t.entries x) := by
  unfold without
  split_ifs
  · exact List.filter_sublist
  · exact List.Sublist.refl _

def erase (d : ℕ) (n : String) (t : FileTree) : FileTree :=
  { t with
    entries := t.without d n
    kind_eq := fun x hx => t.kind_eq x fun h => hx (by simp [without, h])
    names_nodup := fun x => (t.names_nodup x).sublist ((t.without_sublist d n x).map _)
    parent_eq := fun x e he => t.parent_eq x e ((t.without_sublist d n x).subset he)
    name_eq := fun x e he e' he' => t.name_eq x e ((t.without_sublist d n x).subset he) e'
      ((t.without_sublist d n x).subset he')
    acyclic := by
      obtain ⟨depth, hdepth⟩ := t.acyclic
      exact ⟨depth, fun x e he => hdepth x e ((t.without_sublist d n x).subset he)⟩ }

/-! ### Paths -/

/-- The walk along a path; `follow` leads from a directory where a link in it points to. -/
def walk (follow : ℕ → Pathname → Option ℕ) (t : FileTree) : ℕ → Pathname → Option ℕ
  | i, [] => some i
  | i, c :: path =>
    if t.kind i ≠ .directory then none
    else match c with
      | .empty => walk follow t i path
      | .current => walk follow t i path
      | .parent => walk follow t (t.parent i) path
      | .name n => (t.lookup i n).bind fun j =>
        match t.kind j with
        | .link target => (follow i target).bind fun k => walk follow t k path
        | _ => walk follow t j path

/-- An absolute path starts at the root. -/
def start (path : Pathname) (d : ℕ) (t : FileTree) : ℕ :=
  if path.head? = some .empty then t.root else d

/-- Where a path leads from a directory with all links followed, which are nested up to a depth. -/
def follow (t : FileTree) : ℕ → ℕ → Pathname → Option ℕ
  | 0, _, _ => none
  | n + 1, d, path => t.walk (follow t n) (t.start path d) path

def MAX_LINKS : ℕ := 40

/-- Where a path leads. The empty path leads nowhere. -/
def resolve (d : ℕ) (path : Pathname) (t : FileTree) : Option ℕ :=
  if path = [] ∨ path = [.empty] then none else t.follow (MAX_LINKS + 1) d path

/-- The directory that a path leads to. -/
def openDirectory (d : ℕ) (path : Pathname) (t : FileTree) : Option ℕ :=
  (t.resolve d path).filter (t.kind · = .directory)

/-- The way to the last name of a path, that name, and whether a slash follows it. -/
def splitLast (path : Pathname) : Option (Pathname × String × Bool) :=
  let parts := path.rdropWhile Component.isEmpty
  match parts.getLast? with
  | some (.name n) => some (parts.dropLast, n, decide (parts ≠ path))
  | _ => none

/-- The directory and the name of the entry that a path names, whether or not it is there. -/
def entryOf (d : ℕ) (path : Pathname) (t : FileTree) : Option (ℕ × String) :=
  (splitLast path).bind fun (front, n, _) =>
    ((t.walk (t.follow MAX_LINKS) (t.start path d) front).filter (t.kind · = .directory)).map (·, n)

def rmdir (d : ℕ) (path : Pathname) (t : FileTree) : Option FileTree := do
  let (x, n) ← t.entryOf d path
  let i ← t.lookup x n
  if t.kind i = .directory ∧ t.entries i = [] then some (t.erase x n) else none

/-- A slash behind the last name asks for a directory. -/
def unlink (d : ℕ) (path : Pathname) (t : FileTree) : Option FileTree := do
  let (_, _, slash) ← splitLast path
  let (x, n) ← t.entryOf d path
  let i ← t.lookup x n
  if t.kind i ≠ .directory ∧ slash = false then some (t.erase x n) else none

/-- `remove` is `unlink`, and `rmdir` for a directory. -/
def remove (d : ℕ) (path : Pathname) (t : FileTree) : Option FileTree :=
  (t.unlink d path).orElse fun _ => t.rmdir d path

/-! ### What lies at or below a path -/

/-- The entry that a path names itself. -/
def nameOf (d : ℕ) (path : Pathname) (t : FileTree) : Option (ℕ × String) :=
  (splitLast path).bind fun (_, _, slash) => if slash then none else t.entryOf d path

/-- The file at a path; a link in its last name is not followed. -/
def lstat (d : ℕ) (path : Pathname) (t : FileTree) : Option ℕ :=
  match t.nameOf d path with
  | some (x, n) => t.lookup x n
  | none => t.resolve d path

/-- One directory is in another, or the same. -/
def Below (t : FileTree) : ℕ → ℕ → Prop :=
  Relation.ReflTransGen fun a b => ∃ n, t.lookup a n = some b ∧ t.kind b = .directory

/-- An entry is the one at a path, or that of the directory there. -/
def At (d : ℕ) (path : Pathname) (t : FileTree) (x : ℕ) (n : String) : Prop :=
  t.nameOf d path = some (x, n) ∨
    ∃ i, t.lstat d path = some i ∧ t.kind i = .directory ∧ t.lookup x n = some i

/-- An entry is at a path, or in the directory there or in one below it. -/
def AtOrBelow (d : ℕ) (path : Pathname) (t : FileTree) (x : ℕ) (n : String) : Prop :=
  t.At d path x n ∨ ∃ i, t.lstat d path = some i ∧ t.kind i = .directory ∧ t.Below i x

/-! ### Entries -/

variable {t t' t'' : FileTree} {c d i j x y : ℕ} {m n : String} {p q : Pathname}

theorem lookup_eq_some : t.lookup d n = some i ↔ (n, i) ∈ t.entries d := by
  have hnodup := t.names_nodup d
  unfold lookup
  generalize t.entries d = es at hnodup
  induction es with
  | nil => simp
  | cons e es ih =>
    obtain ⟨name, inode⟩ := e
    rw [List.map_cons, List.nodup_cons] at hnodup
    rw [List.lookup_cons, List.mem_cons]
    by_cases hname : n = name
    · subst hname
      have hnot : (n, i) ∉ es := fun hmem => hnodup.1 (List.mem_map.mpr ⟨_, hmem, rfl⟩)
      simp [hnot, eq_comm]
    · have hne : (n == name) = false := by simpa using hname
      simp only [hne, ih hnodup.2, Prod.mk.injEq, hname, false_and, false_or]

theorem lookup_eq_none : t.lookup d n = none ↔ ∀ i, (n, i) ∉ t.entries d := by
  rw [Option.eq_none_iff_forall_ne_some]
  exact forall_congr' fun i => not_congr lookup_eq_some

theorem kind_of_lookup (h : t.lookup d n = some i) : t.kind d = .directory :=
  t.kind_eq d (List.ne_nil_of_mem (lookup_eq_some.mp h))

theorem entries_eq_nil : t.entries d = [] ↔ ∀ n, t.lookup d n = none := by
  simp only [lookup_eq_none, List.eq_nil_iff_forall_not_mem, Prod.forall]

theorem lookup_erase : (t.erase d n).lookup x m = if x = d ∧ m = n then none else t.lookup x m := by
  ext i
  rw [lookup_eq_some]
  change (m, i) ∈ t.without d n x ↔ _
  unfold without
  by_cases hx : x = d
  · by_cases hm : m = n <;> simp [hx, hm, lookup_eq_some]
  · simp [hx, lookup_eq_some]

theorem lookup_erase_of_ne (h : x ≠ d ∨ m ≠ n) : (t.erase d n).lookup x m = t.lookup x m := by
  rw [lookup_erase, if_neg (not_and_or.mpr h)]

/-- A directory has one place. -/
theorem lookup_unique (hx : t.lookup x n = some i) (hy : t.lookup y m = some i)
    (hi : t.kind i = .directory) : x = y ∧ n = m := by
  have hx := lookup_eq_some.mp hx
  have hy := lookup_eq_some.mp hy
  have hparent : t.parent i = x := t.parent_eq x _ hx hi
  have hsame : x = y := hparent.symm.trans (t.parent_eq y _ hy hi)
  subst hsame
  exact ⟨rfl, congrArg Prod.fst (t.name_eq x _ hx _ hy hi rfl)⟩

theorem lookup_asymm (hx : t.lookup x n = some i) (hi : t.kind i = .directory) :
    t.lookup i m ≠ some x := by
  intro hback
  obtain ⟨depth, hdepth⟩ := t.acyclic
  have hdown := hdepth x _ (lookup_eq_some.mp hx) hi
  have hup := hdepth i _ (lookup_eq_some.mp hback) (kind_of_lookup hx)
  exact absurd (hdown.trans hup) (Nat.lt_irrefl _)

theorem lookup_self (hi : t.kind i = .directory) : t.lookup i n ≠ some i := by
  intro h
  obtain ⟨depth, hdepth⟩ := t.acyclic
  exact absurd (hdepth i _ (lookup_eq_some.mp h) hi) (Nat.lt_irrefl _)

/-- The place of a directory below another is in the other or below it. -/
theorem Below.of_lookup (h : t.Below i j) (hne : i ≠ j) (hx : t.lookup x n = some j)
    (hj : t.kind j = .directory) : t.Below i x := by
  rcases Relation.ReflTransGen.cases_tail h with rfl | ⟨y, hy, m, hm, -⟩
  · exact absurd rfl hne
  · obtain ⟨rfl, -⟩ := lookup_unique hx hm hj
    exact hy

/-- A directory is at or below a path with one of its entries, unless that is the entry at the
path. -/
theorem AtOrBelow.of_entry (h : t.AtOrBelow c p i m) (hnot : ¬ t.At c p i m)
    (hx : t.lookup x n = some i) (hi : t.kind i = .directory) : t.AtOrBelow c p x n := by
  rcases h with h | ⟨k, hk, hdir, h⟩
  · exact absurd h hnot
  · by_cases hne : k = i
    · subst hne
      exact .inl (.inr ⟨k, hk, hdir, hx⟩)
    · exact .inr ⟨k, hk, hdir, h.of_lookup hne hx hi⟩

/-- A path has one entry. -/
theorem At.unique (h : t.At c p x n) (h' : t.At c p y m) : x = y ∧ n = m := by
  have hname : ∀ {x y : ℕ} {n m : String} {i : ℕ}, t.nameOf c p = some (x, n) →
      t.lstat c p = some i → t.kind i = .directory → t.lookup y m = some i → x = y ∧ n = m := by
    intro x y n m i hname hi hdir hy
    rw [lstat, hname] at hi
    exact lookup_unique hi hy hdir
  rcases h with h | ⟨i, hi, hdir, hx⟩ <;> rcases h' with h' | ⟨j, hj, hdir', hy⟩
  · simpa using h.symm.trans h'
  · exact hname h hj hdir' hy
  · obtain ⟨rfl, rfl⟩ := hname h' hi hdir hx
    exact ⟨rfl, rfl⟩
  · obtain rfl := Option.some.inj (hi.symm.trans hj)
    exact lookup_unique hx hy hdir

/-! ### A tree without some of its entries -/

/-- Entries are missing, and nothing else has changed. -/
structure Sub (t' t : FileTree) : Prop where
  root : t'.root = t.root
  kind : t'.kind = t.kind
  parent : t'.parent = t.parent
  lookup : ∀ x n i, t'.lookup x n = some i → t.lookup x n = some i

namespace Sub

theorem refl (t : FileTree) : t.Sub t := ⟨rfl, rfl, rfl, fun _ _ _ => id⟩

theorem trans (h : t''.Sub t') (h' : t'.Sub t) : t''.Sub t :=
  ⟨h.root.trans h'.root, h.kind.trans h'.kind, h.parent.trans h'.parent,
    fun x n i hi => h'.lookup x n i (h.lookup x n i hi)⟩

theorem erase (d : ℕ) (n : String) (t : FileTree) : (t.erase d n).Sub t where
  root := rfl
  kind := rfl
  parent := rfl
  lookup x m i hi := by
    rw [lookup_erase] at hi
    split_ifs at hi
    exact hi

theorem lookup_none (h : t'.Sub t) (hx : t.lookup x n = none) : t'.lookup x n = none := by
  cases hx' : t'.lookup x n with
  | none => rfl
  | some i => exact absurd (h.lookup x n i hx') (by simp [hx])

/-- A walk that comes to its end comes to the same end with more entries. -/
theorem walk {f f' : ℕ → Pathname → Option ℕ} (h : t'.Sub t)
    (hf : ∀ d p i, f' d p = some i → f d p = some i) (hi : t'.walk f' d p = some i) :
    t.walk f d p = some i := by
  induction p generalizing d with
  | nil => exact hi
  | cons c p ih =>
    unfold FileTree.walk at hi ⊢
    rw [h.kind, h.parent] at hi
    split_ifs at hi ⊢ with hkind
    cases c with
    | empty => exact ih hi
    | current => exact ih hi
    | parent => exact ih hi
    | name n =>
      obtain ⟨j, hj, hi⟩ := Option.bind_eq_some_iff.mp hi
      refine Option.bind_eq_some_iff.mpr ⟨j, h.lookup _ _ _ hj, ?_⟩
      cases hlink : t.kind j with
      | directory =>
        rw [hlink] at hi
        exact ih hi
      | other =>
        rw [hlink] at hi
        exact ih hi
      | link target =>
        rw [hlink] at hi
        obtain ⟨k, hk, hi⟩ := Option.bind_eq_some_iff.mp hi
        exact Option.bind_eq_some_iff.mpr ⟨k, hf _ _ _ hk, ih hi⟩

theorem start (h : t'.Sub t) (p : Pathname) (d : ℕ) : t'.start p d = t.start p d := by
  rw [FileTree.start, FileTree.start, h.root]

theorem follow (h : t'.Sub t) (k : ℕ) (hi : t'.follow k d p = some i) :
    t.follow k d p = some i := by
  induction k generalizing d p i with
  | zero => exact hi
  | succ k ih =>
    unfold FileTree.follow at hi ⊢
    rw [h.start] at hi
    exact h.walk (fun d p i => ih) hi

theorem resolve (h : t'.Sub t) (hi : t'.resolve d p = some i) : t.resolve d p = some i := by
  unfold FileTree.resolve at hi ⊢
  split_ifs at hi ⊢
  exact h.follow _ hi

theorem openDirectory (h : t'.Sub t) (hi : t'.openDirectory d p = some i) :
    t.openDirectory d p = some i := by
  rw [FileTree.openDirectory, Option.filter_eq_some_iff] at hi ⊢
  rw [h.kind] at hi
  exact ⟨h.resolve hi.1, hi.2⟩

theorem entryOf (h : t'.Sub t) {e : ℕ × String} (he : t'.entryOf d p = some e) :
    t.entryOf d p = some e := by
  unfold FileTree.entryOf at he ⊢
  obtain ⟨⟨front, n, slash⟩, hsplit, he⟩ := Option.bind_eq_some_iff.mp he
  refine Option.bind_eq_some_iff.mpr ⟨_, hsplit, ?_⟩
  obtain ⟨x, hx, rfl⟩ := Option.map_eq_some_iff.mp he
  rw [Option.filter_eq_some_iff, h.kind, h.start] at hx
  refine Option.map_eq_some_iff.mpr ⟨x, Option.filter_eq_some_iff.mpr ⟨?_, hx.2⟩, rfl⟩
  exact h.walk (fun _ _ _ => h.follow _) hx.1

theorem nameOf (h : t'.Sub t) {e : ℕ × String} (he : t'.nameOf d p = some e) :
    t.nameOf d p = some e := by
  obtain ⟨⟨front, n, slash⟩, hsplit, he⟩ := Option.bind_eq_some_iff.mp he
  refine Option.bind_eq_some_iff.mpr ⟨_, hsplit, ?_⟩
  cases slash with
  | true => cases he
  | false => exact h.entryOf he

end Sub

/-! ### Paths of entries -/

theorem kind_of_openDirectory (h : t.openDirectory d p = some i) : t.kind i = .directory := by
  rw [openDirectory, Option.filter_eq_some_iff] at h
  exact of_decide_eq_true h.2

theorem ne_of_openDirectory (h : t.openDirectory d p = some i) : p ≠ [] ∧ p ≠ [.empty] := by
  by_contra hempty
  rw [openDirectory, resolve, if_pos (by tauto)] at h
  cases h

theorem splitLast_concat (p : Pathname) (n : String) :
    splitLast (p ++ [Component.name n]) = some (p, n, false) := by
  have hdrop : (p ++ [Component.name n]).rdropWhile Component.isEmpty = p ++ [Component.name n] :=
    List.rdropWhile_concat_neg _ _ _ (by simp [Component.isEmpty])
  simp only [splitLast, hdrop]
  simp

/-- The entry of a name behind the path of a directory. -/
theorem entryOf_child (hp : p ≠ [] ∧ p ≠ [.empty]) :
    t.entryOf c (p ++ [Component.name n]) = (t.openDirectory c p).map (·, n) := by
  have hhead : (p ++ [Component.name n]).head? = p.head? := by
    obtain ⟨a, l, rfl⟩ := List.exists_cons_of_ne_nil hp.1
    rfl
  rw [entryOf, splitLast_concat, Option.bind_some, openDirectory, resolve,
    if_neg (by tauto), follow, start, start, hhead]

theorem entryOf_name : t.entryOf c [Component.name m] =
    if t.kind c = .directory then some (c, m) else none := by
  have hsplit := splitLast_concat [] m
  rw [List.nil_append] at hsplit
  rw [entryOf, hsplit, Option.bind_some]
  by_cases hc : t.kind c = .directory <;> simp [walk, start, hc]

/-- The directory that a name leads to is that of the entry, unless it is a link. -/
theorem openDirectory_name (h : t.openDirectory c [Component.name m] = some d) :
    t.kind c = .directory ∧ ∃ j, t.lookup c m = some j ∧ (t.kind j = .directory → j = d) := by
  rw [openDirectory, Option.filter_eq_some_iff, resolve, if_neg (by simp), follow, walk] at h
  have hstart : t.start [Component.name m] c = c := by simp [start]
  rw [hstart] at h
  obtain ⟨h, -⟩ := h
  split_ifs at h with hc
  obtain ⟨j, hj, h⟩ := Option.bind_eq_some_iff.mp h
  refine ⟨not_not.mp hc, j, hj, fun hkind => ?_⟩
  rw [hkind] at h
  exact Option.some.inj h

theorem rmdir_eq_some : t.rmdir c p = some t' ↔ ∃ x n i, t.entryOf c p = some (x, n) ∧
    t.lookup x n = some i ∧ t.kind i = .directory ∧ t.entries i = [] ∧ t' = t.erase x n := by
  simp only [rmdir, Option.bind_eq_bind, Option.bind_eq_some_iff, Prod.exists,
    Option.ite_none_right_eq_some, Option.some.injEq]
  constructor
  · rintro ⟨x, n, he, i, hi, ⟨hkind, hempty⟩, rfl⟩
    exact ⟨x, n, i, he, hi, hkind, hempty, rfl⟩
  · rintro ⟨x, n, i, he, hi, hkind, hempty, rfl⟩
    exact ⟨x, n, he, i, hi, ⟨hkind, hempty⟩, rfl⟩

theorem unlink_eq_some : t.unlink c p = some t' ↔ ∃ x n i, t.nameOf c p = some (x, n) ∧
    t.lookup x n = some i ∧ t.kind i ≠ .directory ∧ t' = t.erase x n := by
  simp only [unlink, nameOf, Option.bind_eq_bind, Option.bind_eq_some_iff, Prod.exists,
    Option.ite_none_right_eq_some, Option.some.injEq]
  constructor
  · rintro ⟨front, n, slash, hsplit, x, n', he, i, hi, ⟨hkind, rfl⟩, rfl⟩
    exact ⟨x, n', i, ⟨front, n, false, hsplit, he⟩, hi, hkind, rfl⟩
  · rintro ⟨x, n', i, ⟨front, n, slash, hsplit, he⟩, hi, hkind, rfl⟩
    cases slash with
    | true => cases he
    | false => exact ⟨front, n, false, hsplit, x, n', he, i, hi, ⟨hkind, rfl⟩, rfl⟩

theorem entryOf_of_nameOf {e : ℕ × String} (h : t.nameOf c p = some e) :
    t.entryOf c p = some e := by
  obtain ⟨⟨front, n, slash⟩, -, h⟩ := Option.bind_eq_some_iff.mp h
  cases slash with
  | true => cases h
  | false => exact h

/-- What is removed is an entry that holds nothing. -/
theorem remove_eq_some (h : t.remove c p = some t') : ∃ x n i, t.entryOf c p = some (x, n) ∧
    t.lookup x n = some i ∧ (t.kind i = .directory → t.entries i = []) ∧
    (t.kind i ≠ .directory → t.nameOf c p = some (x, n)) ∧ t' = t.erase x n := by
  unfold remove at h
  cases hunlink : t.unlink c p with
  | some t'' =>
    rw [hunlink] at h
    obtain ⟨x, n, i, he, hi, hkind, rfl⟩ := unlink_eq_some.mp (hunlink.trans h)
    exact ⟨x, n, i, entryOf_of_nameOf he, hi, fun hdir => absurd hdir hkind, fun _ => he, rfl⟩
  | none =>
    rw [hunlink] at h
    obtain ⟨x, n, i, he, hi, hkind, hempty, rfl⟩ := rmdir_eq_some.mp h
    exact ⟨x, n, i, he, hi, fun _ => hempty, fun hdir => absurd hkind hdir, rfl⟩

theorem Sub.rmdir (h : t.rmdir c p = some t') : t'.Sub t := by
  obtain ⟨x, n, -, -, -, -, -, rfl⟩ := rmdir_eq_some.mp h
  exact Sub.erase x n t

theorem Sub.remove (h : t.remove c p = some t') : t'.Sub t := by
  obtain ⟨x, n, -, -, -, -, -, rfl⟩ := remove_eq_some h
  exact Sub.erase x n t

theorem nameOf_concat (p : Pathname) (n : String) :
    t.nameOf c (p ++ [Component.name n]) = t.entryOf c (p ++ [Component.name n]) := by
  rw [nameOf, splitLast_concat, Option.bind_some]
  rfl

/-- What is removed by the path of a directory and a name is the entry of the name. -/
theorem remove_child_eq_some (hp : p ≠ [] ∧ p ≠ [.empty])
    (h : t.remove c (p ++ [Component.name n]) = some t') : ∃ d i, t.openDirectory c p = some d ∧
      t.lookup d n = some i ∧ (t.kind i = .directory → t.entries i = []) ∧ t' = t.erase d n := by
  obtain ⟨x, m, i, he, hi, hempty, -, rfl⟩ := remove_eq_some h
  rw [entryOf_child hp] at he
  obtain ⟨d, hd, heq⟩ := Option.map_eq_some_iff.mp he
  rw [Prod.mk.injEq] at heq
  obtain ⟨rfl, rfl⟩ := heq
  exact ⟨d, i, hd, hi, hempty, rfl⟩

theorem rmdir_name_eq_some (h : t.rmdir c [Component.name m] = some t') : ∃ i,
    t.lookup c m = some i ∧ t.kind i = .directory ∧ t.entries i = [] ∧ t' = t.erase c m := by
  obtain ⟨x, n, i, he, hi, hdir, hempty, rfl⟩ := rmdir_eq_some.mp h
  rw [entryOf_name] at he
  split_ifs at he
  cases he
  exact ⟨i, hi, hdir, hempty, rfl⟩

/-- An entry of a directory that holds nothing can be removed by its path. -/
theorem remove_child (hd : t.openDirectory c p = some d) (hi : t.lookup d n = some i)
    (hempty : t.kind i = .directory → t.entries i = []) :
    t.remove c (p ++ [Component.name n]) = some (t.erase d n) := by
  have he : t.entryOf c (p ++ [Component.name n]) = some (d, n) := by
    rw [entryOf_child (ne_of_openDirectory hd), hd, Option.map_some]
  rw [remove]
  by_cases hkind : t.kind i = .directory
  · have hunlink : t.unlink c (p ++ [Component.name n]) = none := by
      rw [Option.eq_none_iff_forall_ne_some]
      intro t' h
      obtain ⟨x, m, j, hname, hj, hnot, -⟩ := unlink_eq_some.mp h
      rw [nameOf_concat, he] at hname
      cases hname
      exact hnot (Option.some.inj (hi.symm.trans hj) ▸ hkind)
    rw [hunlink]
    exact rmdir_eq_some.mpr ⟨d, n, i, he, hi, hkind, hempty hkind, rfl⟩
  · have hunlink : t.unlink c (p ++ [Component.name n]) = some (t.erase d n) :=
      unlink_eq_some.mpr ⟨d, n, i, (nameOf_concat p n).trans he, hi, hkind, rfl⟩
    rw [hunlink]
    rfl

theorem walk_append (f : ℕ → Pathname → Option ℕ) (t : FileTree) (d : ℕ) (p q : Pathname) :
    t.walk f d (p ++ q) = (t.walk f d p).bind fun i => t.walk f i q := by
  induction p generalizing d with
  | nil => rfl
  | cons a p ih =>
    simp only [List.cons_append, walk]
    split_ifs
    · rfl
    · cases a with
      | empty => exact ih d
      | current => exact ih d
      | parent => exact ih _
      | name n =>
        dsimp only
        cases t.lookup d n with
        | none => rfl
        | some j =>
          dsimp only [Option.bind_some]
          cases t.kind j with
          | directory => exact ih j
          | other => exact ih j
          | link target =>
            dsimp only
            cases f d target with
            | none => rfl
            | some k => exact ih k

theorem walk_empties (f : ℕ → Pathname → Option ℕ) (hi : t.kind i = .directory)
    (hp : ∀ a ∈ p, a = Component.empty) : t.walk f i p = some i := by
  induction p with
  | nil => rfl
  | cons a p ih =>
    obtain ⟨rfl, hrest⟩ := List.forall_mem_cons.mp hp
    rw [walk, if_neg (not_not.mpr hi)]
    exact ih hrest

/-- What `splitLast` takes apart. -/
theorem eq_of_splitLast {front : Pathname} {slash : Bool}
    (h : splitLast p = some (front, n, slash)) :
    p = front ++ Component.name n :: p.rtakeWhile Component.isEmpty := by
  have hparts : p.rdropWhile Component.isEmpty = front ++ [Component.name n] := by
    unfold splitLast at h
    rcases List.eq_nil_or_concat' (p.rdropWhile Component.isEmpty) with hnil | ⟨l, a, hl⟩
    · simp [hnil] at h
    · simp only [hl, List.getLast?_concat, List.dropLast_concat] at h ⊢
      cases a <;> simp at h
      obtain ⟨rfl, rfl, -⟩ := h
      rfl
  have hall : p.rdropWhile Component.isEmpty ++ p.rtakeWhile Component.isEmpty = p :=
    List.rdropWhile_append_rtakeWhile
  rw [hparts] at hall
  simpa using hall.symm

/-- The walk to a file goes through the entry that its path names. -/
theorem resolve_eq_some {front : Pathname} {slash : Bool}
    (hsplit : splitLast p = some (front, n, slash)) (h : t.resolve c p = some i) :
    ∃ x, t.entryOf c p = some (x, n) ∧ t.lookup x n ≠ none := by
  have hp := eq_of_splitLast hsplit
  unfold resolve at h
  split_ifs at h with hempty
  rw [follow, hp, walk_append, ← hp] at h
  obtain ⟨x, hx, h⟩ := Option.bind_eq_some_iff.mp h
  rw [walk] at h
  split_ifs at h with hkind
  obtain ⟨j, hj, -⟩ := Option.bind_eq_some_iff.mp h
  refine ⟨x, ?_, by simp [hj]⟩
  rw [entryOf, hsplit, Option.bind_some]
  dsimp only
  rw [hx, Option.filter_some, if_pos (by simpa using hkind), Option.map_some]

/-- A path that still leads to a file still has its entry. -/
theorem Sub.lookup_of_resolve (h : t'.Sub t) (hname : t.nameOf c p = some (x, n))
    (hi : t'.resolve c p = some i) : t'.lookup x n ≠ none := by
  have he := entryOf_of_nameOf hname
  obtain ⟨⟨front, m, slash⟩, hsplit, -⟩ := Option.bind_eq_some_iff.mp hname
  obtain ⟨y, hy, hlookup⟩ := resolve_eq_some hsplit hi
  rw [h.entryOf hy] at he
  cases he
  exact hlookup

/-- The path of a directory's entry leads to the directory. -/
theorem resolve_of_entryOf (h : t.entryOf c p = some (x, n)) (hx : t.lookup x n = some i)
    (hi : t.kind i = .directory) : t.resolve c p = some i := by
  obtain ⟨⟨front, n', slash⟩, hsplit, h⟩ := Option.bind_eq_some_iff.mp h
  obtain ⟨x', hwalk, heq⟩ := Option.map_eq_some_iff.mp h
  cases heq
  obtain ⟨hwalk, hkind⟩ := Option.filter_eq_some_iff.mp hwalk
  have hp := eq_of_splitLast hsplit
  -- behind the last name there are only slashes
  have hslashes : ∀ a ∈ p.rtakeWhile Component.isEmpty, a = Component.empty := by
    intro a ha
    have hempty : a.isEmpty := List.mem_rtakeWhile_imp ha
    exact of_decide_eq_true hempty
  have hne : ¬ (p = [] ∨ p = [.empty]) := by
    have hmem : Component.name n ∈ p := by
      rw [hp]
      simp
    rintro (hempty | hempty) <;> simp [hempty] at hmem
  have hlast : t.walk (t.follow MAX_LINKS) x
      (Component.name n :: p.rtakeWhile Component.isEmpty) = some i := by
    rw [walk, if_neg (not_not.mpr (of_decide_eq_true hkind))]
    simp only [hx, Option.bind_some, hi]
    exact walk_empties _ hi hslashes
  rw [resolve, if_neg hne, follow, hp, walk_append, ← hp, hwalk, Option.bind_some]
  exact hlast

theorem resolve_of_openDirectory (h : t.openDirectory c p = some i) : t.resolve c p = some i :=
  (Option.filter_eq_some_iff.mp h).1

theorem openDirectory_of_resolve (h : t.resolve c p = some i) (hi : t.kind i = .directory) :
    t.openDirectory c p = some i :=
  Option.filter_eq_some_iff.mpr ⟨h, by simpa using hi⟩

/-- The file at the path of a directory is that of the entry that the path names. -/
theorem lstat_of_entryOf (h : t.entryOf c p = some (x, n)) (hx : t.lookup x n = some i)
    (hi : t.kind i = .directory) : t.lstat c p = some i := by
  unfold lstat
  cases hname : t.nameOf c p with
  | some e =>
    obtain rfl := Option.some.inj ((entryOf_of_nameOf hname).symm.trans h)
    exact hx
  | none => exact resolve_of_entryOf h hx hi

theorem openDirectory_of_lstat (h : t.lstat c p = some i) (hi : t.kind i = .directory) :
    t.openDirectory c p = some i := by
  unfold lstat at h
  cases hname : t.nameOf c p with
  | some e =>
    rw [hname] at h
    exact openDirectory_of_resolve (resolve_of_entryOf (entryOf_of_nameOf hname) h hi) hi
  | none =>
    rw [hname] at h
    exact openDirectory_of_resolve h hi

theorem At.lstat (h : t.At c p x n) (hx : t.lookup x n = some i) : t.lstat c p = some i := by
  rcases h with h | ⟨j, hj, hdir, h⟩
  · rw [FileTree.lstat, h]
    exact hx
  · obtain rfl := Option.some.inj (hx.symm.trans h)
    exact hj

/-- The entry at a path is named by it, unless it is that of a directory. -/
theorem At.nameOf (h : t.At c p x n) (hx : t.lookup x n = some i) (hi : t.kind i ≠ .directory) :
    t.nameOf c p = some (x, n) := by
  rcases h with h | ⟨j, hj, hdir, h⟩
  · exact h
  · obtain rfl := Option.some.inj (hx.symm.trans h)
    exact absurd hdir hi

theorem At.of_entryOf (h : t.entryOf c p = some (x, n)) (hx : t.lookup x n = some i)
    (hi : t.kind i = .directory) : t.At c p x n :=
  .inr ⟨i, lstat_of_entryOf h hx hi, hi, hx⟩

end FileTree

end Foundation
