import OksSystem.Exceptions
import OksSystem.Lib.FileTree
import OksSystem.Lib.Pieces

/-!
# Files and path names

* `File` : a file is its full name;
* `Name` : the name of a directory entry; `comps` : the components of a path name;
* `render` : the canonical path name of a node, which `comps_render` and `comps_child` take apart again;
* `Absolute` : the path names from the root.
-/

namespace OksSystem
open ByteBuffer

structure File where
  fullName : Str
  deriving DecidableEq, Repr

def slash : Byte := 47
def tilde : Byte := 126
def dot : Byte := 46
def colon : Byte := 58

def IsName (s : Str) : Prop := s ≠ [] ∧ s ≠ [dot] ∧ s ≠ [dot, dot] ∧ slash ∉ s ∧ 0 ∉ s

instance : DecidablePred IsName := fun _ => inferInstanceAs (Decidable (_ ∧ _))

/-- What a directory entry can be called. -/
abbrev Name := {s : Str // IsName s}

def comp (s : Str) : Comp Name :=
  if h : IsName s then .name ⟨s, h⟩
  else if s = [dot] then .dot
  else if s = [dot, dot] then .dotdot
  else .empty

def comps (s : Str) : List (Comp Name) := (s.splitOn slash).map comp

/-- The path of names, each with a slash before it. -/
def slashed (p : List Name) : Str := p.flatMap fun n => slash :: n.1

/-- The canonical path name of the node at `p`. -/
def render (p : List Name) : Str := if p = [] then [slash] else slashed p

theorem comp_name (n : Name) : comp n.1 = .name n := dif_pos n.2

theorem comp_nil : comp [] = .empty := by
  unfold comp
  rw [dif_neg fun h : IsName [] => h.1 rfl, if_neg (by simp), if_neg (by simp)]

theorem splitOn_append_slashed {s : Str} (h : slash ∉ s) (p : List Name) :
    (s ++ slashed p).splitOn slash = s :: p.map Subtype.val := by
  induction p generalizing s with
  | nil =>
    change (s ++ []).splitOn slash = [s]
    rw [List.append_nil, List.splitOn_eq_singleton h]
  | cons n p ih =>
    change (s ++ slash :: (n.1 ++ slashed p)).splitOn slash = _
    rw [List.splitOn_append_cons_self_of_not_mem h, ih n.2.2.2.2.1, List.map_cons]

theorem comps_slashed (p : List Name) : comps (slashed p) = .empty :: p.map .name := by
  have hsplit := splitOn_append_slashed List.not_mem_nil p
  rw [List.nil_append] at hsplit
  unfold comps
  rw [hsplit, List.map_cons, comp_nil, List.map_map]
  congr 1
  exact List.map_congr_left fun n _ => comp_name n

theorem comps_render {p : List Name} (hp : p ≠ []) : comps (render p) = .empty :: p.map .name := by
  unfold render
  rw [if_neg hp]
  exact comps_slashed p

theorem comps_root : comps (render []) = [.empty, .empty] := by
  unfold render comps
  rw [if_pos rfl]
  change (([] ++ slash :: []).splitOn slash).map comp = _
  rw [List.splitOn_append_cons_self_of_not_mem List.not_mem_nil, List.splitOn_nil]
  simp only [List.map_cons, List.map_nil, comp_nil]

/-- The path name `directory` makes for an entry. -/
theorem comps_child {p : List Name} (hp : p ≠ []) (n : Name) :
    comps (render p ++ slash :: n.1) = .empty :: (p.map .name ++ [.name n]) := by
  have happend : render p ++ slash :: n.1 = slashed (p ++ [n]) := by
    unfold render slashed
    rw [if_neg hp, List.flatMap_append, List.flatMap_singleton]
  rw [happend, comps_slashed, List.map_append]
  rfl

theorem comps_child_root (n : Name) : comps (render [] ++ slash :: n.1) = [.empty, .empty, .name n] := by
  unfold render comps
  rw [if_pos rfl]
  have hsplit := splitOn_append_slashed List.not_mem_nil [n]
  unfold slashed at hsplit
  rw [List.flatMap_singleton] at hsplit
  change (([] ++ slash :: ([] ++ slash :: n.1)).splitOn slash).map comp = _
  rw [List.splitOn_append_cons_self_of_not_mem List.not_mem_nil, hsplit]
  simp only [List.map_cons, List.map_nil, comp_nil, comp_name]

theorem nul_notMem_slashed (p : List Name) : 0 ∉ slashed p := by
  unfold slashed
  rw [List.mem_flatMap]
  rintro ⟨n, -, hn⟩
  rcases List.mem_cons.1 hn with h | h
  · exact absurd h (by decide)
  · exact n.2.2.2.2.2 h

theorem nul_notMem_render (p : List Name) : 0 ∉ render p := by
  unfold render
  split_ifs
  · decide
  · exact nul_notMem_slashed p

/-- A path name from the root. -/
def Absolute (path : Str) : Prop := ∃ s, path = slash :: s

theorem Absolute.append {path : Str} (h : Absolute path) (s : Str) : Absolute (path ++ s) := by
  obtain ⟨b, rfl⟩ := h
  exact ⟨b ++ s, rfl⟩

theorem absolute_render (p : List Name) : Absolute (render p) := by
  unfold render
  split_ifs with hp
  · exact ⟨[], rfl⟩
  · obtain ⟨n, p, rfl⟩ := List.exists_cons_of_ne_nil hp
    exact ⟨_, rfl⟩

end OksSystem
