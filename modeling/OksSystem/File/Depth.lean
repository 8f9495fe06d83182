import OksSystem.File.Make

/-!
# The depth of a path

* `protocol`, `uri`, `shortNameOf`, `depthOf` : the static members that cut a path or a URL apart;
* `depthOf_slash` : the depth of a path from the root is the number of slashes behind the first;
* `joined` : the path of components; `parentName_concat`, `shortNameOf_concat` take off the last one;
* `parent_depth_agree` : `depth`, `parent_name` and `short_name` describe the same path.
-/

namespace OksSystem
open ByteBuffer Pieces

/-! ## The static members -/

def protocol (url : Str) : Str :=
  match find url colon 0 with
  | none => []
  | some i => substr url 0 i

def uri (url : Str) : Str :=
  match find url colon 0 with
  | none => url
  | some i => url.drop (i + 1)

/-- `short_name(url)`. -/
def shortNameOf (url : Str) : Str :=
  match rfind url slash with
  | none => url
  | some i => url.drop (i + 1)

/-- `FILE_PROTOCOL`. -/
def fileProtocol : Str := text "file"

/-- The loop of `depth`: every slash that is found counts. -/
def depthLoop (rest : Str) (count : Int) : Int :=
  if rest = [] then count
  else
    match h : find rest slash 0 with
    | none => count
    | some i => depthLoop (rest.drop (i + 1)) (count + 1)
termination_by rest.length
decreasing_by
  have := (find_eq_some h).2.1
  rw [List.length_drop]
  omega

/-- `uri` is shorter than a URL with a protocol. -/
theorem length_uri_lt {url : Str} (h : protocol url ≠ []) : (uri url).length < url.length := by
  unfold protocol at h
  unfold uri
  split at h
  · exact absurd rfl h
  · rename_i i hi
    have := (find_eq_some hi).2.1
    simp only [List.length_drop]
    omega

/-- `depth(path)`. -/
def depthOf (path : Str) : Int :=
  if path.head? = some slash then depthLoop path.tail 0
  else if h : protocol path = fileProtocol then depthOf (uri path)
  else -1
termination_by path.length
decreasing_by exact length_uri_lt (by rw [h]; decide)

namespace File

/-- `short_name()`. -/
def shortName (f : File) : Str := shortNameOf f.fullName

/-- `depth()`. -/
def depth (f : File) : Int := depthOf f.fullName

end File

/-! ## Counting -/

theorem depthLoop_eq (rest : Str) (count : Int) : depthLoop rest count = count + rest.count slash := by
  fun_induction depthLoop rest count with
  | case1 count => simp
  | case2 rest count hne hnone =>
    have hnot : slash ∉ rest := find_eq_none hnone
    rw [List.count_eq_zero.2 hnot]
    simp
  | case3 rest count hne i hsome ih =>
    obtain ⟨-, -, hnot, hsplit⟩ := find_eq_some hsome
    rw [List.drop_zero] at hsplit
    have hcount : rest.count slash = (rest.drop (i + 1)).count slash + 1 := by
      conv_lhs => rw [hsplit]
      rw [List.count_append, List.count_eq_zero.2 hnot, List.count_cons_self, Nat.zero_add]
    rw [ih, hcount]
    omega

theorem depthOf_slash (s : Str) : depthOf (slash :: s) = s.count slash := by
  rw [depthOf, if_pos List.head?_cons, depthLoop_eq, List.tail_cons, Int.zero_add]

/-! ## URLs -/

theorem protocol_cons {k : Str} (h : colon ∉ k) (t : Str) : protocol (k ++ colon :: t) = k := by
  unfold protocol
  rw [find_append_cons h]
  show (List.drop 0 (k ++ colon :: t)).take k.length = k
  rw [List.drop_zero, List.take_left]

theorem uri_cons {k : Str} (h : colon ∉ k) (t : Str) : uri (k ++ colon :: t) = t := by
  unfold uri
  rw [find_append_cons h]
  show (k ++ colon :: t).drop (k.length + 1) = t
  rw [List.drop_length_add_append, List.drop_one, List.tail_cons]

/-- A URL has the depth of its path. -/
theorem depthOf_file (s : Str) : depthOf (text "file:" ++ s) = depthOf s := by
  have hcolon : colon ∉ fileProtocol := by decide
  rw [show text "file:" ++ s = fileProtocol ++ colon :: s from rfl, depthOf, protocol_cons hcolon, uri_cons hcolon]
  exact (if_neg (by show some (102 : Byte) ≠ some slash; decide)).trans (dif_pos rfl)

/-! ## Paths of components -/

/-- The path of the components `cs`. -/
def joined (cs : List Str) : Str := cs.flatMap (slash :: ·)

theorem joined_cons (c : Str) (cs : List Str) : joined (c :: cs) = slash :: (c ++ joined cs) := rfl

theorem joined_concat (cs : List Str) (c : Str) : joined (cs ++ [c]) = joined cs ++ slash :: c := by
  unfold joined
  rw [List.flatMap_append, List.flatMap_singleton]

theorem joined_eq_nil {cs : List Str} : joined cs = [] ↔ cs = [] := by
  cases cs <;> simp [joined]

theorem joined_ne_root {cs : List Str} (h : ∀ c ∈ cs, c ≠ []) : joined cs ≠ [slash] := by
  cases cs with
  | nil => simp [joined]
  | cons c cs =>
    rw [joined_cons]
    have hc := h c List.mem_cons_self
    simp [hc]

theorem count_joined {cs : List Str} (h : ∀ c ∈ cs, slash ∉ c) : (joined cs).count slash = cs.length := by
  induction cs with
  | nil => rfl
  | cons c cs ih =>
    have hc : c.count slash = 0 := List.count_eq_zero.2 (h c List.mem_cons_self)
    rw [joined_cons, List.count_cons_self, List.count_append, hc, ih fun d hd => h d (List.mem_cons_of_mem c hd),
      List.length_cons]
    omega

/-- The depth is the number of components above the last. -/
theorem depthOf_joined {cs : List Str} (hne : cs ≠ []) (h : ∀ c ∈ cs, slash ∉ c) :
    depthOf (joined cs) + 1 = cs.length := by
  have hcount := count_joined h
  obtain ⟨c, cs, rfl⟩ := List.exists_cons_of_ne_nil hne
  rw [joined_cons, List.count_cons_self] at hcount
  rw [joined_cons, depthOf_slash]
  omega

theorem parentName_concat (cs : List Str) {c : Str} (hc : slash ∉ c) :
    File.parentName ⟨joined (cs ++ [c])⟩ = if cs = [] then [slash] else joined cs := by
  rw [joined_concat, File.parentName_append _ hc]
  simp only [joined_eq_nil]

theorem shortNameOf_concat (cs : List Str) {c : Str} (hc : slash ∉ c) : shortNameOf (joined (cs ++ [c])) = c := by
  unfold shortNameOf
  rw [joined_concat, rfind_append_cons _ hc]
  show (joined cs ++ slash :: c).drop ((joined cs).length + 1) = c
  rw [List.drop_length_add_append, List.drop_one, List.tail_cons]

/-! ## Parents -/

/-- `parent_name` of a path. -/
def parentOf (path : Str) : Str := File.parentName ⟨path⟩

/-- The path of a name in a directory. -/
def join (dir name : Str) : Str := if dir = [slash] then dir ++ name else dir ++ slash :: name

theorem iterate_parentOf_root (k : Nat) : parentOf^[k] [slash] = [slash] :=
  Function.iterate_fixed (by decide) k

/-- Every parent has one component less, and the parent of one component is the root. -/
theorem iterate_parentOf_eq_root {cs : List Str} (hne : cs ≠ []) (h : ∀ c ∈ cs, c ≠ [] ∧ slash ∉ c) (k : Nat) :
    parentOf^[k] (joined cs) = [slash] ↔ cs.length ≤ k := by
  induction cs using List.reverseRecOn generalizing k with
  | nil => exact absurd rfl hne
  | append_singleton cs c ih =>
    have hcs : ∀ d ∈ cs, d ≠ [] ∧ slash ∉ d := fun d hd => h d (List.mem_append_left [c] hd)
    cases k with
    | zero =>
      refine iff_of_false (joined_ne_root fun d hd => (h d hd).1) ?_
      simp
    | succ k =>
      have hparent : parentOf (joined (cs ++ [c])) = if cs = [] then [slash] else joined cs :=
        parentName_concat cs (h c (by simp)).2
      rw [Function.iterate_succ_apply, hparent, List.length_append, List.length_singleton]
      by_cases hnil : cs = []
      · rw [if_pos hnil, hnil]
        exact iff_of_true (iterate_parentOf_root k) (by simp)
      · rw [if_neg hnil, ih hnil hcs]
        omega

/-- A path is its parent and its last component, and one deeper than its parent. -/
theorem join_parent {cs : List Str} (hne : cs ≠ []) (h : ∀ c ∈ cs, c ≠ [] ∧ slash ∉ c) :
    join (parentOf (joined cs)) (shortNameOf (joined cs)) = joined cs := by
  obtain ⟨ds, c, rfl⟩ := (List.eq_nil_or_concat' cs).resolve_left hne
  have hc : slash ∉ c := (h c (by simp)).2
  unfold parentOf join
  rw [parentName_concat ds hc, shortNameOf_concat ds hc, joined_concat]
  by_cases hds : ds = []
  · rw [if_pos hds, if_pos rfl, hds]
    rfl
  · have hroot : joined ds ≠ [slash] := joined_ne_root fun d hd => (h d (List.mem_append_left [c] hd)).1
    rw [if_neg hds, if_neg hroot]

theorem depthOf_parent {cs : List Str} (hne : cs ≠ []) (h : ∀ c ∈ cs, c ≠ [] ∧ slash ∉ c) :
    depthOf (joined cs) = if parentOf (joined cs) = [slash] then 0 else depthOf (parentOf (joined cs)) + 1 := by
  have hdepth := depthOf_joined hne fun c hc => (h c hc).2
  obtain ⟨ds, c, rfl⟩ := (List.eq_nil_or_concat' cs).resolve_left hne
  rw [List.length_append, List.length_singleton] at hdepth
  unfold parentOf
  rw [parentName_concat ds (h c (by simp)).2]
  by_cases hds : ds = []
  · rw [hds, List.length_nil] at hdepth
    rw [if_pos hds, if_pos rfl, hds]
    omega
  · have hroot : joined ds ≠ [slash] := joined_ne_root fun d hd => (h d (List.mem_append_left [c] hd)).1
    have hparent := depthOf_joined hds fun d hd => (h d (List.mem_append_left [c] hd)).2
    rw [if_neg hds, if_neg hroot]
    omega

/-- **`depth`, `parent_name` and `short_name` describe the same path.** The depth is within `int`. -/
theorem parent_depth_agree (f : File) (cs : List Str) (hne : cs ≠ []) (hcs : ∀ c ∈ cs, c ≠ [] ∧ slash ∉ c)
    (hf : f.fullName = joined cs) (hlen : f.fullName.length < 2147483648) :
    join f.parentName f.shortName = f.fullName ∧
      f.depth = (if f.parentName = [slash] then 0 else depthOf f.parentName + 1) ∧
      (∀ k : Nat, parentOf^[k] f.fullName = [slash] ↔ f.depth + 1 ≤ k) ∧
      (∀ k : Nat, depthOf ((List.replicate k (text "file:")).flatten ++ f.fullName) = f.depth) ∧
      0 ≤ f.depth ∧ f.depth < 2147483648 := by
  obtain ⟨path⟩ := f
  obtain rfl : path = joined cs := hf
  have hslash : ∀ c ∈ cs, slash ∉ c := fun c hc => (hcs c hc).2
  have hdepth : depthOf (joined cs) + 1 = cs.length := depthOf_joined hne hslash
  have hcount : cs.length ≤ (joined cs).length := count_joined hslash ▸ List.count_le_length
  change (joined cs).length < 2147483648 at hlen
  have hpos : 0 < cs.length := List.length_pos_iff.2 hne
  refine ⟨?_, ?_, fun k => ?_, fun k => ?_, ?_⟩
  · exact join_parent hne hcs
  · exact depthOf_parent hne hcs
  · show _ ↔ depthOf (joined cs) + 1 ≤ k
    rw [iterate_parentOf_eq_root hne hcs, hdepth, Int.ofNat_le]
  · induction k with
    | zero => rfl
    | succ k ih =>
      rw [List.replicate_succ, List.flatten_cons, List.append_assoc, depthOf_file]
      exact ih
  · show 0 ≤ depthOf (joined cs) ∧ depthOf (joined cs) < 2147483648
    omega

theorem parent_depth_agree_etc :
    join (File.parentName ⟨text "/etc/ssh"⟩) (File.shortName ⟨text "/etc/ssh"⟩) = text "/etc/ssh" ∧
      File.depth ⟨text "/etc/ssh"⟩ = 1 ∧ parentOf^[2] (text "/etc/ssh") = [slash] ∧
      depthOf (text "file:file:/etc/ssh") = 1 := by
  have hdepth : File.depth ⟨text "/etc/ssh"⟩ + 1 = 2 :=
    depthOf_joined (show [text "etc", text "ssh"] ≠ [] by decide) (by decide)
  obtain ⟨hjoin, -, hroot, hurl, -⟩ :=
    parent_depth_agree ⟨text "/etc/ssh"⟩ [text "etc", text "ssh"] (by decide) (by decide) rfl (by decide)
  refine ⟨hjoin, by omega, (hroot 2).2 (by omega), ?_⟩
  exact (hurl 2).trans (by omega)

end OksSystem
