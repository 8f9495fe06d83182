import OksSystem.File.MakePath

/-!
# When a path that was made is no directory

`make_dir` throws nothing when something that is not a directory stands at the path.

* `LeadsToOther` : with the missing directories made, the path leads to something that is not a directory;
* `triple_makePath` : when `make_path` returns, the path names a directory, unless it led to something else;
* `run_makePath` : when it leads anywhere at all, a host that refuses nothing lets `make_path` return;
* `make_names_dir_iff` : when `make_dir`, `make_path` and `ensure_path` return only with a directory at the path.
-/

namespace OksSystem
open ByteBuffer EStateM FileTree Pieces

namespace File

variable {m m' : Machine} {c : Creator} {f : File} {perm : Mode} {path : Str} {q d : List Name} {depth : Nat}

/-- Once the missing directories are made, the path leads to something that is not a directory. -/
def LeadsToOther (m : Machine) (path : Str) : Prop :=
  ∃ q, m.tree.through [] (comps (cstr path)) = some q ∧ m.tree.Blocks q

theorem through_of_machine (hfree : m.tree.LinkFree) (habs : Absolute path) (h : m.resolve path = .ok q) :
    m.tree.through [] (comps (cstr path)) = some q := by
  rw [resolve_of_absolute m habs] at h
  exact through_of_resolve hfree h

theorem NamesOther.leadsToOther (hfree : m.tree.LinkFree) (habs : Absolute path) (h : NamesOther m path) :
    LeadsToOther m path := by
  obtain ⟨q, hq, hblocks⟩ := h
  exact ⟨q, through_of_machine hfree habs hq, hblocks⟩

theorem leadsToOther_gains (h : m.Gains m') : LeadsToOther m' path ↔ LeadsToOther m path := by
  unfold LeadsToOther
  rw [h.tree.through]
  simp only [h.tree.blocks_iff]

/-! ## What holds when they return -/

/-- **When `make_path` returns, the path names a directory or led to something else before.** -/
theorem triple_makePath (c : Creator) (depth : Nat) (perm : Mode) (habs : Absolute f.fullName)
    (hfree : m.tree.LinkFree) :
    Triple (· = m) (makePath c depth perm f)
      (fun _ m' => m.Gains m' ∧ (∃ q, m'.resolve f.fullName = .ok q) ∧
        (NamesDir m' f.fullName ∨ LeadsToOther m f.fullName)) m.Gains := by
  induction depth generalizing m perm f with
  | zero => exact Triple.throw _ fun m' h => h ▸ .refl m
  | succ depth ih =>
    have hmake : ∀ m₁, m.Gains m₁ → Triple (· = m₁) (makeDir c perm f)
        (fun _ m' => m.Gains m' ∧ (∃ q, m'.resolve f.fullName = .ok q) ∧
          (NamesDir m' f.fullName ∨ LeadsToOther m f.fullName)) m.Gains := by
      intro m₁ hgains
      have hfree₁ := hgains.tree.linkFree hfree
      refine (triple_makeDir c perm f hfree₁).mono (fun _ h => h) (fun _ m' h => ⟨hgains.trans h.1, ?_, ?_⟩)
        fun m' h => hgains.trans h
      · rcases h.2 with ⟨q, hq, -⟩ | hother
        · exact ⟨q, hq⟩
        · obtain ⟨q, hq, -⟩ := hother.gains hfree₁ h.1
          exact ⟨q, hq⟩
      · exact h.2.imp_right fun hother => (leadsToOther_gains hgains).1 (hother.leadsToOther hfree₁ habs)
    have hparent : (parent c.toHost f).run m = .ok (father m f) m := run_new c.toHost m (absolute_parentName habs)
    rw [makePath]
    refine Triple.bind_ok hparent (Triple.bind_ok (run_exists? _) ?_)
    cases (m.stat (father m f).fullName).toBool with
    | true => exact hmake m (.refl m)
    | false =>
      have habs' : Absolute (father m f).fullName := absolute_stored m (absolute_parentName habs)
      refine Triple.bind (ih (perm ||| sIrwxu) habs' hfree) fun _ => ?_
      exact Triple.of_forall fun m₁ h => hmake m₁ h.1

/-! ## When they return -/

theorem exists_run_setPermissions (perm : Mode) (hchmod : ∀ k, c.chmod k = none) (hq : m.resolve f.fullName = .ok q)
    (hn : m.tree.node q ≠ none) : ∃ m', (setPermissions c perm f).run m = .ok () m' := by
  obtain ⟨n, hn⟩ := Option.ne_none_iff_exists'.1 hn
  rcases run_setPermissions perm hchmod hq hn with ⟨hrun, -⟩ | hrun
  · exact ⟨_, hrun⟩
  · exact ⟨_, hrun⟩

/-- On a host that refuses nothing, `make_dir` returns when the path resolves, and when `mkdir` can make it. -/
theorem run_makeDir (perm : Mode) (hmkdir : ∀ k, c.mkdir k = none) (hchmod : ∀ k, c.chmod k = none)
    (hfree : m.tree.LinkFree)
    (h : (∃ q, m.resolve f.fullName = .ok q ∧ m.tree.node q ≠ none) ∨
      ∃ t, m.mkdir (perm.perm &&& ~~~c.umask) f.fullName = .ok t) :
    ∃ m', (makeDir c perm f).run m = .ok () m' := by
  have hmade {t : Tree} (ht : m.mkdir (perm.perm &&& ~~~c.umask) f.fullName = .ok t) :
      ∃ m', (makeDir c perm f).run m = .ok () m' := by
    obtain ⟨-, -, q, hq, hdir⟩ := gains_mkdir hfree ht
    obtain ⟨m', hset⟩ := exists_run_setPermissions perm hchmod hq hdir.real.node_ne_none
    exact ⟨m', run_makeDir_made (run_mkdirNode perm hmkdir ht) hset⟩
  rcases h with ⟨q, hq, hn⟩ | ⟨t, ht⟩
  · rcases mkdirNode_cases c perm f m with ⟨t, ht, -⟩ | ⟨e, -, hfails⟩
    · exact hmade ht
    · obtain ⟨m', hset⟩ : ∃ m', (setPermissions c perm f).run m.ticked = .ok () m' :=
        exists_run_setPermissions perm hchmod hq hn
      obtain ⟨n, hn⟩ := Option.ne_none_iff_exists'.1 hn
      have hstat : m.ticked.stat f.fullName = .ok (mode n) := stat_of_resolve hq hn
      rcases run_makeDir_there hfails hstat hset with hrun | hrun
      · exact ⟨_, hrun⟩
      · exact ⟨_, hrun⟩
  · exact hmade ht

/-! ## The path and its parent -/

/-- `parent_name` cuts at the last slash, and leaves the first one. -/
theorem parentName_cases (habs : Absolute f.fullName) :
    (∃ post, slash ∉ post ∧ f.fullName = [] ++ slash :: post ∧ f.parentName = [slash]) ∨
      ∃ post, slash ∉ post ∧ f.fullName = f.parentName ++ slash :: post := by
  unfold parentName
  cases hfind : rfind f.fullName slash with
  | none =>
    obtain ⟨s, hs⟩ := habs
    exact absurd (hs ▸ List.mem_cons_self) (rfind_eq_none hfind)
  | some i =>
    obtain ⟨-, hsplit, hlast⟩ := rfind_eq_some hfind
    by_cases hi : i = 0
    · subst hi
      exact .inl ⟨_, hlast, hsplit, rfl⟩
    · refine .inr ⟨_, hlast, ?_⟩
      show _ = (if i = 0 then [slash] else (f.fullName.drop 0).take i) ++ _
      rw [if_neg hi]
      exact hsplit

theorem comps_append_slash (pre : Str) {post : Str} (h : slash ∉ post) :
    comps (pre ++ slash :: post) = comps pre ++ [comp post] := by
  unfold comps
  rw [List.splitOn_append_cons_self, List.map_append, List.splitOn_eq_singleton h]
  rfl

theorem cstr_append_slash {pre post : Str} (h : 0 ∉ pre) : cstr (pre ++ slash :: post) = pre ++ slash :: cstr post := by
  unfold cstr
  rw [List.takeWhile_append_of_pos (fun b hb => by
    have hne : b ≠ 0 := fun h0 => h (h0 ▸ hb)
    simpa using hne), List.takeWhile_cons_of_pos (by decide)]

theorem slash_notMem_cstr {s : Str} (h : slash ∉ s) : slash ∉ cstr s :=
  fun hmem => h ((List.takeWhile_sublist _).mem hmem)

/-- The path is the path of its parent and one component more; after a NUL it is the same path. -/
theorem comps_parentName (habs : Absolute f.fullName) : comps (cstr f.fullName) = comps (cstr f.parentName) ∨
    ∃ base k, comps (cstr f.fullName) = base ++ [k] ∧ ∀ t : Tree,
      t.through [] base = t.through [] (comps (cstr f.parentName)) ∧
        t.resolve maxLinks [] base = t.resolve maxLinks [] (comps (cstr f.parentName)) := by
  rcases parentName_cases habs with ⟨post, hpost, hname, hparent⟩ | ⟨post, hpost, hname⟩
  · -- `[.empty]` and `[.empty, .empty]` both lead to the root
    refine .inr ⟨comps [], comp (cstr post), ?_, fun t => ?_⟩
    · rw [hname, cstr_append_slash List.not_mem_nil, comps_append_slash [] (slash_notMem_cstr hpost)]
    · rw [hparent, show comps [] = [.empty] by decide, show comps (cstr [slash]) = [.empty, .empty] by decide]
      rw [through_empty t.root, through_empty t.root, through_empty t.root, resolve_empty t.root,
        resolve_empty t.root, resolve_empty t.root]
      exact ⟨rfl, rfl⟩
  · by_cases h0 : 0 ∈ f.parentName
    · left
      obtain ⟨s, hs⟩ := cstr_spec h0
      have hfull : f.fullName = cstr f.parentName ++ 0 :: (s ++ slash :: post) := by
        rw [hname]
        conv_lhs => rw [hs]
        simp
      rw [hfull, cstr_append_nul (nul_notMem_cstr _)]
    · refine .inr ⟨comps (cstr f.parentName), comp (cstr post), ?_, fun t => ⟨rfl, rfl⟩⟩
      rw [cstr_of_notMem h0]
      conv_lhs => rw [hname]
      rw [cstr_append_slash h0, comps_append_slash _ (slash_notMem_cstr hpost)]

theorem length_parentName (habs : Absolute f.fullName) :
    f.parentName = [slash] ∨ f.parentName.length < f.fullName.length := by
  rcases parentName_cases habs with ⟨_, _, _, hparent⟩ | ⟨post, _, hname⟩
  · exact .inl hparent
  · right
    have hlen := congrArg List.length hname
    rw [List.length_append, List.length_cons] at hlen
    omega

/-! ## When `make_path` returns -/

theorem resolve_root (m : Machine) : m.resolve [slash] = .ok [] := resolve_render (IsDir.real m.tree.root)

theorem node_of_resolve (habs : Absolute path) (h : m.resolve path = .ok q) : m.tree.node q ≠ none :=
  (real_of_resolve habs h).node_ne_none

/-- Once the parent is there, `mkdir` can make the path, or the path leads somewhere already. -/
theorem leads_or_mkdir (p : Perm) (hfree : m.tree.LinkFree) (habs : Absolute f.fullName)
    (hparent : m.resolve f.parentName = .ok d) (hthrough : m.tree.through [] (comps (cstr f.fullName)) = some q) :
    (∃ q, m.resolve f.fullName = .ok q ∧ m.tree.node q ≠ none) ∨ ∃ t, m.mkdir p f.fullName = .ok t := by
  have hres := resolve_of_absolute m habs
  have hresp := resolve_of_absolute m (absolute_parentName habs)
  rcases comps_parentName habs with hsame | ⟨base, k, hcomps, hbase⟩
  · left
    rw [hsame, ← hresp, hparent] at hres
    exact ⟨d, hres, node_of_resolve habs hres⟩
  · have hd : m.tree.resolve maxLinks [] base = .ok d := by rw [(hbase m.tree).2, ← hresp, hparent]
    have hnot : ¬ m.tree.Blocks d := by
      rw [hcomps, through_append, through_of_resolve hfree hd] at hthrough
      intro hblocks
      change (if m.tree.Blocks d then none else _) = some q at hthrough
      rw [if_pos hblocks] at hthrough
      exact absurd hthrough (by simp)
    have hdir := isDir_of_not_blocks hnot (node_of_resolve (absolute_parentName habs) hparent)
    have hlast : m.resolve f.fullName =
        if m.tree.node (advance d k) = none then .error .noEntry else .ok (advance d k) := by
      rw [hres, hcomps, resolve_append hfree, hd]
      change m.tree.resolve maxLinks d [k] = _
      rw [resolve_cons hfree, if_pos hdir, resolve_nil]
    by_cases hnone : m.tree.node (advance d k) = none
    · right
      -- '.' and '..' of a directory are there, so the last component is a name
      have hname : ∃ n, k = .name n := by
        cases k with
        | empty => exact absurd hnone hdir.real.node_ne_none
        | dot => exact absurd hnone hdir.real.node_ne_none
        | dotdot => exact absurd hnone (isDir_dropLast hdir).real.node_ne_none
        | name n => exact ⟨n, rfl⟩
      obtain ⟨n, rfl⟩ := hname
      refine ⟨m.tree.insert d n (.dir p) hdir hnone, ?_⟩
      rw [mkdir_of_absolute m _ habs, hcomps, mkdir_append_name hd hdir hnone]
    · left
      rw [if_neg hnone] at hlast
      exact ⟨_, hlast, hnone⟩

/-- Once the parent is there, `make_dir` returns if the path leads anywhere. -/
theorem run_makeDir_of_parent (perm : Mode) (hmkdir : ∀ k, c.mkdir k = none) (hchmod : ∀ k, c.chmod k = none)
    (hfree : m.tree.LinkFree) (habs : Absolute f.fullName) (hparent : m.resolve f.parentName = .ok d)
    (hthrough : m.tree.through [] (comps (cstr f.fullName)) = some q) :
    ∃ m', (makeDir c perm f).run m = .ok () m' :=
  run_makeDir perm hmkdir hchmod hfree (leads_or_mkdir _ hfree habs hparent hthrough)

/-- **On a host that refuses nothing `make_path` returns if the path leads anywhere.** The recursion is on the length of
the path. -/
theorem run_makePath (perm : Mode) (hmkdir : ∀ k, c.mkdir k = none) (hchmod : ∀ k, c.chmod k = none)
    (hfree : m.tree.LinkFree) (habs : Absolute f.fullName) (hthrough : m.tree.through [] (comps (cstr f.fullName)) = some q)
    (hdepth : f.fullName.length < depth) :
    ∃ m', (makePath c depth perm f).run m = .ok () m' := by
  induction depth generalizing m perm f q with
  | zero => omega
  | succ depth ih =>
    have habsp := absolute_parentName habs
    cases hres : m.resolve f.parentName with
    | ok d =>
      rw [run_makePath_of_parent c depth perm habs hres]
      exact run_makeDir_of_parent perm hmkdir hchmod hfree habs hres hthrough
    | error e =>
      have hlen : f.parentName.length < f.fullName.length := by
        rcases length_parentName habs with hroot | hlt
        · rw [hroot, resolve_root] at hres
          exact absurd hres (by simp)
        · exact hlt
      have hparent : ∃ d, m.tree.through [] (comps (cstr f.parentName)) = some d := by
        rcases comps_parentName habs with hsame | ⟨base, k, hcomps, hbase⟩
        · exact ⟨q, hsame ▸ hthrough⟩
        · rw [hcomps, through_append, Option.bind_eq_some_iff] at hthrough
          obtain ⟨d, hd, -⟩ := hthrough
          exact ⟨d, (hbase m.tree).1 ▸ hd⟩
      obtain ⟨d, hd⟩ := hparent
      obtain ⟨m₁, hrun₁⟩ := ih (f := ⟨f.parentName⟩) (perm ||| sIrwxu) hfree habsp hd (by
        show f.parentName.length < depth
        omega)
      have hpost := triple_makePath c depth (perm ||| sIrwxu) (f := ⟨f.parentName⟩) habsp hfree m rfl
      rw [hrun₁] at hpost
      obtain ⟨hgains, ⟨d₁, hd₁⟩, -⟩ := hpost
      have hthrough₁ : m₁.tree.through [] (comps (cstr f.fullName)) = some q := by rw [hgains.tree.through, hthrough]
      obtain ⟨m', hrun⟩ := run_makeDir_of_parent perm hmkdir hchmod (hgains.tree.linkFree hfree) habs hd₁ hthrough₁
      rw [run_makePath_of_missing c depth perm habs hres, run_bind_ok hrun₁]
      exact ⟨m', hrun⟩

/-! ## When there is a directory afterwards -/

/-- What leads to something else, still does. -/
theorem not_namesDir_of_leadsToOther (hgains : m.Gains m') (hfree : m.tree.LinkFree) (habs : Absolute path)
    (h : LeadsToOther m path) : ¬ NamesDir m' path := by
  rintro ⟨q', hq', hdir⟩
  obtain ⟨q, hq, hblocks⟩ := (leadsToOther_gains hgains).2 h
  have hsame := through_of_machine (hgains.tree.linkFree hfree) habs hq'
  obtain rfl := Option.some.inj (hsame.symm.trans hq)
  exact hblocks.2 hdir

/-- `make_dir` on every host. -/
theorem makeDir_iff (hfree : m.tree.LinkFree) (perm : Mode) (f : File) :
    (∀ c m', (makeDir c perm f).run m = .ok () m' → NamesDir m' f.fullName) ↔ ¬ NamesOther m f.fullName := by
  constructor
  · intro h hother
    obtain ⟨q, hq, hblocks⟩ := hother
    obtain ⟨m', hrun⟩ := run_makeDir (c := willing) perm (fun _ => rfl) (fun _ => rfl) hfree
      (.inl ⟨q, hq, hblocks.1⟩)
    have hpost := triple_makeDir willing perm f hfree m rfl
    rw [hrun] at hpost
    exact (NamesOther.gains ⟨q, hq, hblocks⟩ hfree hpost.1).not_namesDir (h willing m' hrun)
  · intro h c m' hrun
    have hpost := triple_makeDir c perm f hfree m rfl
    rw [hrun] at hpost
    exact hpost.2.resolve_right h

/-- `make_path` on every host, with any room on the stack. -/
theorem makePath_iff (hfree : m.tree.LinkFree) (perm : Mode) (habs : Absolute f.fullName) :
    (∀ c depth m', (makePath c depth perm f).run m = .ok () m' → NamesDir m' f.fullName) ↔
      ¬ LeadsToOther m f.fullName := by
  constructor
  · intro h hother
    obtain ⟨q, hq, -⟩ := id hother
    obtain ⟨m', hrun⟩ := run_makePath (c := willing) perm (fun _ => rfl) (fun _ => rfl) hfree habs hq
      (Nat.lt_succ_self _)
    have hpost := triple_makePath willing (f.fullName.length + 1) perm habs hfree m rfl
    rw [hrun] at hpost
    exact not_namesDir_of_leadsToOther hpost.1 hfree habs hother (h willing _ m' hrun)
  · intro h c depth m' hrun
    have hpost := triple_makePath c depth perm habs hfree m rfl
    rw [hrun] at hpost
    exact hpost.2.2.resolve_right h

/-- The stored name of a path leads where the path leads. -/
theorem through_stored (hfree : m.tree.LinkFree) (habs : Absolute path) :
    m.tree.through [] (comps (cstr (m.stored path))) = m.tree.through [] (comps (cstr path)) := by
  cases hres : m.resolve path with
  | error e => rw [stored_of_error hres]
  | ok q =>
    rw [stored_of_resolve hres, through_of_machine hfree habs hres]
    exact through_of_machine hfree (absolute_render q) (resolve_render (real_of_resolve habs hres))

theorem namesDir_stored_iff (hgains : m.Gains m') (hfree : m.tree.LinkFree) (habs : Absolute path) :
    NamesDir m' (m.stored path) ↔ NamesDir m' path := by
  unfold NamesDir
  cases hres : m.resolve path with
  | error e => rw [stored_of_error hres]
  | ok q =>
    have hq : m'.resolve (render q) = .ok q := hgains.resolve hfree (resolve_render (real_of_resolve habs hres))
    rw [stored_of_resolve hres, hq, hgains.resolve hfree hres]

theorem ensurePath_iff (hfree : m.tree.LinkFree) (perm : Mode) (habs : Absolute f.fullName) :
    (∀ c depth m', (ensurePath c depth perm f).run m = .ok () m' → NamesDir m' f.parentName) ↔
      ¬ LeadsToOther m f.parentName := by
  have habsp := absolute_parentName habs
  have hrun : ∀ c depth, (ensurePath c depth perm f).run m = (makePath c depth perm (father m f)).run m :=
    fun c depth => run_bind_ok (run_new c.toHost m habsp)
  have hother : LeadsToOther m (father m f).fullName ↔ LeadsToOther m f.parentName := by
    unfold LeadsToOther father
    rw [through_stored hfree habsp]
  have habsf : Absolute (father m f).fullName := absolute_stored m habsp
  rw [← hother, ← makePath_iff hfree perm habsf]
  refine forall_congr' fun c => forall_congr' fun depth => forall_congr' fun m' => ?_
  rw [hrun]
  refine imp_congr_right fun hok => ?_
  have hpost := triple_makePath c depth perm habsf hfree m rfl
  rw [hok] at hpost
  exact (namesDir_stored_iff hpost.1 hfree habsp).symm

/-- **A call that returns leaves a directory at the path exactly when nothing else is there.** `make_dir` looks at the path
itself, `make_path` and `ensure_path` at the path with its missing directories made. -/
theorem make_names_dir_iff (m : Machine) (hfree : m.tree.LinkFree) (perm : Mode) (f : File)
    (habs : Absolute f.fullName) :
    ((∀ c m', (makeDir c perm f).run m = .ok () m' → NamesDir m' f.fullName) ↔ ¬ NamesOther m f.fullName) ∧
    ((∀ c depth m', (makePath c depth perm f).run m = .ok () m' → NamesDir m' f.fullName) ↔
      ¬ LeadsToOther m f.fullName) ∧
    ((∀ c depth m', (ensurePath c depth perm f).run m = .ok () m' → NamesDir m' f.parentName) ↔
      ¬ LeadsToOther m f.parentName) :=
  ⟨makeDir_iff hfree perm f, makePath_iff hfree perm habs, ensurePath_iff hfree perm habs⟩

/-- A regular file in the root. -/
def withFile : Machine :=
  { bare with tree := bare.tree.insert [] nameA (.other ⟨.regular, 0o644⟩) isDir_bare rfl }

def fileA : File := ⟨text "/a"⟩

theorem linkFree_withFile : withFile.tree.LinkFree := by
  intro p target
  show Function.update bare.tree.node [nameA] _ p ≠ _
  by_cases hp : p = [nameA]
  · rw [hp, Function.update_self]
    simp
  · rw [Function.update_of_ne hp]
    exact linkFree_ofRoot _ p target

/-- `make_dir` on a regular file. -/
theorem makeDir_returns_on_file : ¬ ∀ (c : Creator) (m : Machine) (perm : Mode) (f : File), m.tree.LinkFree →
    ∀ m', (makeDir c perm f).run m = .ok () m' → NamesDir m' f.fullName := by
  intro h
  have hother : NamesOther withFile fileA.fullName := ⟨[nameA], rfl, by decide⟩
  exact (makeDir_iff linkFree_withFile 0o755 fileA).1 (fun c => h c withFile 0o755 fileA linkFree_withFile) hother

theorem make_names_dir_iff_file :
    ((∀ c m', (makeDir c 0o755 fileA).run withFile = .ok () m' → NamesDir m' fileA.fullName) ↔
      ¬ NamesOther withFile fileA.fullName) ∧
    ((∀ c depth m', (makePath c depth 0o755 fileA).run withFile = .ok () m' → NamesDir m' fileA.fullName) ↔
      ¬ LeadsToOther withFile fileA.fullName) ∧
    ((∀ c depth m', (ensurePath c depth 0o755 fileA).run withFile = .ok () m' → NamesDir m' fileA.parentName) ↔
      ¬ LeadsToOther withFile fileA.parentName) :=
  make_names_dir_iff withFile linkFree_withFile 0o755 fileA ⟨text "a", rfl⟩

end File

end OksSystem
