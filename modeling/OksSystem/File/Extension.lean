import OksSystem.File.Depth

/-!
# The extension of a path

* `extensionOf`, `File.extension` : what follows the last dot of the whole path;
* `extensionOf_append` : the last dot of a path is in its last component, or the extension goes on behind a slash;
* `extension_belongs_iff` : **the extension is that of the short name iff the short name has a dot or the path has none**.
-/

namespace OksSystem
open ByteBuffer Pieces

/-- `extension(url)`. -/
def extensionOf (url : Str) : Str :=
  match rfind url dot with
  | none => []
  | some i => url.drop (i + 1)

/-- `extension()`. -/
def File.extension (f : File) : Str := extensionOf f.fullName

theorem extensionOf_of_notMem {s : Str} (h : dot ∉ s) : extensionOf s = [] := by
  unfold extensionOf
  cases hi : rfind s dot with
  | none => rfl
  | some i =>
    obtain ⟨-, hsplit, -⟩ := rfind_eq_some hi
    rw [hsplit] at h
    exact absurd (List.mem_append_right _ List.mem_cons_self) h

theorem extensionOf_append_dot (pre : Str) {post : Str} (h : dot ∉ post) : extensionOf (pre ++ dot :: post) = post := by
  unfold extensionOf
  rw [rfind_append_cons pre h]
  show (pre ++ dot :: post).drop (pre.length + 1) = post
  rw [List.drop_length_add_append, List.drop_one, List.tail_cons]

/-- A text with a dot is cut at the last one. -/
theorem exists_last_dot {s : Str} (h : dot ∈ s) : ∃ pre post, s = pre ++ dot :: post ∧ dot ∉ post := by
  cases hi : rfind s dot with
  | none => exact absurd h (rfind_eq_none hi)
  | some i =>
    obtain ⟨-, hsplit, hlast⟩ := rfind_eq_some hi
    exact ⟨_, _, hsplit, hlast⟩

/-- What is in front of a dot does not matter. -/
theorem extensionOf_append (pre : Str) {s : Str} (h : dot ∈ s) : extensionOf (pre ++ s) = extensionOf s := by
  obtain ⟨u, v, rfl, hv⟩ := exists_last_dot h
  rw [← List.append_assoc, extensionOf_append_dot _ hv, extensionOf_append_dot _ hv]

theorem mem_of_mem_extensionOf {s : Str} {c : Byte} (h : c ∈ extensionOf s) : c ∈ s := by
  unfold extensionOf at h
  cases hi : rfind s dot with
  | none =>
    rw [hi] at h
    cases h
  | some i =>
    rw [hi] at h
    exact List.mem_of_mem_drop h

/-- The last dot of a path whose last component has none is on the way there. -/
theorem slash_mem_extensionOf {dir f : Str} (hdir : dot ∈ dir) (hf : dot ∉ f) : slash ∈ extensionOf (dir ++ slash :: f) := by
  obtain ⟨u, v, rfl, hv⟩ := exists_last_dot hdir
  have hrest : dot ∉ v ++ slash :: f := by
    intro hmem
    rcases List.mem_append.1 hmem with hmem | hmem
    · exact hv hmem
    · rcases List.mem_cons.1 hmem with heq | hmem
      · exact absurd heq (by decide)
      · exact hf hmem
  have hpath : u ++ dot :: v ++ slash :: f = u ++ dot :: (v ++ slash :: f) := by
    rw [List.append_assoc, List.cons_append]
  rw [hpath, extensionOf_append_dot _ hrest]
  exact List.mem_append_right v List.mem_cons_self

/-- The extension of a path is that of its last component, unless that has no dot but the way there has. -/
theorem extensionOf_component_iff (dir f : Str) :
    extensionOf (dir ++ slash :: f) = extensionOf f ↔ (dot ∈ dir → dot ∈ f) := by
  by_cases hf : dot ∈ f
  · have hpath : dir ++ slash :: f = (dir ++ [slash]) ++ f := by rw [List.append_assoc, List.singleton_append]
    rw [hpath, extensionOf_append _ hf]
    exact iff_of_true rfl fun _ => hf
  rw [extensionOf_of_notMem hf]
  by_cases hdir : dot ∈ dir
  · refine iff_of_false (fun h => ?_) fun h => hf (h hdir)
    have hslash := slash_mem_extensionOf hdir hf
    rw [h] at hslash
    cases hslash
  · refine iff_of_true (extensionOf_of_notMem ?_) fun h => absurd h hdir
    intro hmem
    rcases List.mem_append.1 hmem with hmem | hmem
    · exact hdir hmem
    · rcases List.mem_cons.1 hmem with heq | hmem
      · exact absurd heq (by decide)
      · exact hf hmem

theorem extensionOf_eq_nil_iff (f : Str) : extensionOf f = [] ↔ dot ∉ f ∨ f.getLast? = some dot := by
  by_cases hf : dot ∈ f
  · obtain ⟨u, v, rfl, hv⟩ := exists_last_dot hf
    rw [extensionOf_append_dot _ hv]
    constructor
    · rintro rfl
      exact .inr (by simp)
    · rintro (h | h)
      · exact absurd hf h
      · by_contra hne
        rw [List.getLast?_append_cons, List.getLast?_cons_of_ne_nil hne] at h
        exact hv (List.mem_of_getLast? h)
  · exact iff_of_true (extensionOf_of_notMem hf) (.inl hf)

/-- A path is its short name, or ends in it behind a slash. -/
theorem shortNameOf_cases (s : Str) : slash ∉ shortNameOf s ∧ (shortNameOf s = s ∨ ∃ dir, s = dir ++ slash :: shortNameOf s) := by
  unfold shortNameOf
  cases hi : rfind s slash with
  | none => exact ⟨rfind_eq_none hi, .inl rfl⟩
  | some i =>
    obtain ⟨-, hsplit, hlast⟩ := rfind_eq_some hi
    exact ⟨hlast, .inr ⟨_, hsplit⟩⟩

/-- The extension belongs to the last component. -/
def ExtensionBelongs (s : Str) : Prop := slash ∉ extensionOf s ∧ extensionOf s = extensionOf (shortNameOf s)

theorem extensionBelongs_iff (s : Str) : ExtensionBelongs s ↔ (dot ∈ s → dot ∈ shortNameOf s) := by
  obtain ⟨hslash, hself | ⟨dir, hdir⟩⟩ := shortNameOf_cases s
  · unfold ExtensionBelongs
    rw [hself] at hslash ⊢
    exact iff_of_true ⟨fun h => hslash (mem_of_mem_extensionOf h), rfl⟩ id
  · have hiff := extensionOf_component_iff dir (shortNameOf s)
    rw [← hdir] at hiff
    have hmem : dot ∈ s ↔ dot ∈ dir ∨ dot ∈ shortNameOf s := by
      conv_lhs => rw [hdir]
      simp [show dot ≠ slash by decide]
    have hdot : (dot ∈ s → dot ∈ shortNameOf s) ↔ (dot ∈ dir → dot ∈ shortNameOf s) := by
      rw [hmem, or_imp, and_iff_left id]
    rw [hdot, ← hiff]
    refine ⟨And.right, fun h => ⟨?_, h⟩⟩
    rw [h]
    exact fun hmem => hslash (mem_of_mem_extensionOf hmem)

/-- **The extension of a path belongs to its last component iff that has a dot or the path has none**; so it is with the
path of a file in a directory, and the extension of a name is empty iff the name has no dot or ends with one. -/
theorem extension_belongs_iff (s dir f : Str) :
    (ExtensionBelongs s ↔ (dot ∈ s → dot ∈ shortNameOf s)) ∧
      (File.extension ⟨dir ++ slash :: f⟩ = extensionOf f ↔ (dot ∈ dir → dot ∈ f)) ∧
      (extensionOf f = [] ↔ dot ∉ f ∨ f.getLast? = some dot) :=
  ⟨extensionBelongs_iff s, extensionOf_component_iff dir f, extensionOf_eq_nil_iff f⟩

/-- The extension of `/a.d/f` is `d/f`. -/
theorem extension_of_directory : ¬ ∀ s, ExtensionBelongs s := by
  intro h
  exact absurd (h (text "/a.d/f")).1 (by decide)

end OksSystem
