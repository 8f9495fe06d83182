import OksSystem.File.MakeDir
import OksSystem.Lib.Interleave

/-!
# Directories made by several processes at once

Between two system calls of `make_path` other processes may make directories of the same path.

* `Calls.setPermissions`, `Calls.makeDir`, `Calls.makePath` : the members of `File` as the system calls they make, each of
  which is one step; `Calls.run_makePath` : alone they are the members;
* `amid_setPermissions`, `amid_makeDir`, `amid_makePath` : what the members do while other processes make directories and
  change permissions;
* `within_makePath` : how many system calls there are;
* `makePaths_together_iff` : **any number of calls of `make_path` succeed together exactly when each succeeds alone**.
-/

namespace OksSystem
open ByteBuffer EStateM FileTree Pieces

namespace File

/-! ## The members, one system call at a time -/

abbrev Calls (α : Type) := Prog Stop Machine α

namespace Calls

def throwCall {α : Type} (error : Errno) (name message : Str) : Calls α :=
  throw (.issue (.osSystemCall error name (cstr message)))

variable (c : Creator)

/-- `permissions(perm)`. -/
def setPermissions (perm : Mode) (f : File) : Calls Unit := do
  if perm ≠ (← Prog.atomic (permissions f)) then
    if let some e ← Prog.atomic (chmodNode c perm f) then
      throwCall e (text "chmod") (text "on file/directory " ++ f.fullName)

def makeDir (perm : Mode) (f : File) : Calls Unit := do
  match ← Prog.atomic (mkdirNode c perm f) with
  | none =>
    tryCatch (setPermissions c perm f) fun
      | .issue (.osSystemCall e _ _) => throwCall e (text "mkdir -> chmod") (text "on directory " ++ f.fullName)
      | stop => throw stop
  | some mkdirError =>
    if ← Prog.atomic (exists? f) then
      if ← Prog.atomic (isDirectory f) then
        tryCatch (setPermissions c perm f) fun
          | .issue (.osSystemCall ..) => return
          | stop => throw stop
    else throwCall mkdirError (text "mkdir") (text "on directory " ++ f.fullName)

/-- `make_path(perm)`, on a stack that has room for so many of its frames. -/
def makePath : Nat → Mode → File → Calls Unit
  | 0, _, _ => throw .stackOverflow
  | depth + 1, perm, f => do
    let father ← Prog.atomic (parent c.toHost f)
    if !(← Prog.atomic (exists? father)) then makePath depth (perm ||| sIrwxu) father
    makeDir c perm f

theorem run_setPermissions (perm : Mode) (f : File) : (setPermissions c perm f).run = File.setPermissions c perm f := by
  unfold setPermissions File.setPermissions
  rw [Prog.run_bind, Prog.run_atomic]
  congr 1
  funext perm'
  split_ifs
  · rw [Prog.run_bind, Prog.run_atomic]
    congr 1
    funext e
    cases e <;> rfl
  · rfl

theorem run_makeDir (perm : Mode) (f : File) : (makeDir c perm f).run = File.makeDir c perm f := by
  unfold makeDir File.makeDir
  rw [Prog.run_bind, Prog.run_atomic]
  congr 1
  funext r
  cases r with
  | none =>
    show (tryCatch _ _ : Calls Unit).run = _
    rw [Prog.run_tryCatch, run_setPermissions]
    congr 1
    funext stop
    rcases stop with ⟨i⟩ | _
    · cases i <;> rfl
    · rfl
  | some e =>
    show (Prog.atomic _ >>= _ : Calls Unit).run = _
    rw [Prog.run_bind, Prog.run_atomic]
    congr 1
    funext b
    cases b with
    | false => rfl
    | true =>
      show (Prog.atomic _ >>= _ : Calls Unit).run = _
      rw [Prog.run_bind, Prog.run_atomic]
      congr 1
      funext b
      cases b with
      | false => rfl
      | true =>
        show (tryCatch _ _ : Calls Unit).run = _
        rw [Prog.run_tryCatch, run_setPermissions]
        congr 1
        funext stop
        rcases stop with ⟨i⟩ | _
        · cases i <;> rfl
        · rfl

/-- Alone, the calls do what the members do. -/
theorem run_makePath (depth : Nat) (perm : Mode) (f : File) :
    (makePath c depth perm f).run = File.makePath c depth perm f := by
  induction depth generalizing perm f with
  | zero => rfl
  | succ depth ih =>
    rw [makePath, File.makePath, Prog.run_bind, Prog.run_atomic]
    congr 1
    funext father
    rw [Prog.run_bind, Prog.run_atomic]
    congr 1
    funext b
    cases b with
    | true => exact run_makeDir c perm f
    | false =>
      show (makePath c depth (perm ||| sIrwxu) father >>= _ : Calls Unit).run = _
      rw [Prog.run_bind, ih]
      congr 1
      funext _
      exact run_makeDir c perm f

end Calls

/-! ## Amid the others -/

/-- The others may make directories and change permissions. -/
instance : IsPreorder Machine Machine.Gains where
  refl := .refl
  trans _ _ _ := .trans

variable {m t : Machine} {c : Creator} {f : File} {perm : Mode} {d q : List Name} {depth : Nat}

theorem stat_of_namesDir (h : NamesDir m f.fullName) :
    ∃ md, m.stat f.fullName = .ok md ∧ (md &&& sIfdir != 0) = true := by
  obtain ⟨q, hq, p, hp⟩ := h
  exact ⟨_, stat_of_resolve hq hp, mode_dir p⟩

/-- `permissions(perm)` amid others that keep `P`, which tells that the path leads somewhere. -/
theorem amid_setPermissions {R : Machine → Machine → Prop} [IsPreorder Machine R] {P : Machine → Prop} (perm : Mode)
    (hchmod : ∀ k, c.chmod k = none) (hstat : ∀ t, P t → ∃ md, t.stat f.fullName = .ok md)
    (hstays : ∀ t t', P t → R t t' → P t')
    (hstep : ∀ t p, P t → t.resolve f.fullName = .ok p → R t (t.withTree (t.chmodAt perm.perm p))) (hm : P m) :
    (Calls.setPermissions c perm f).Amid R (fun _ => P) (fun _ _ => False) m := by
  unfold Calls.setPermissions
  refine Prog.Amid.bind (Q := fun _ => P) (Prog.Amid.atomic fun t ht => ?_) fun md t ht hP => ?_
  · have hP := hstays m t hm ht
    obtain ⟨md, hmd⟩ := hstat t hP
    rw [run_permissions, hmd]
    exact ⟨refl_of R t, fun t' => hstays t t' hP⟩
  · split_ifs
    · refine Prog.Amid.bind (Q := fun r t => r = none ∧ P t) (Prog.Amid.atomic fun t' ht' => ?_) ?_
      · have hP' := hstays t t' hP ht'
        rcases chmodNode_cases c perm f t' with ⟨p, hp, hrun⟩ | ⟨e, he, -⟩
        · rw [hrun]
          have hR := hstep t' p hP' hp
          exact ⟨hR, fun t'' ht'' => ⟨rfl, hstays t' t'' hP' (trans_of R hR ht'')⟩⟩
        · obtain ⟨md, hmd⟩ := hstat t' hP'
          obtain ⟨q, n, hq, hn, -⟩ := stat_eq_ok hmd
          rcases he with he | he
          · exact nomatch (hchmod _).symm.trans he
          · unfold Machine.chmod at he
            simp [hq, hn] at he
      · rintro _ t' - ⟨rfl, hP'⟩
        exact Prog.Amid.pure fun t'' => hstays t' t'' hP'
    · exact Prog.Amid.pure fun t' => hstays t t' hP

/-- Once the parent is there, `mkdir` makes the directory or fails for what another process has made. -/
theorem amid_mkdirNode (perm : Mode) (hmkdir : ∀ k, c.mkdir k = none) (hfree : m.tree.LinkFree) (habs : Absolute f.fullName)
    (hparent : m.resolve f.parentName = .ok d) (hthrough : m.tree.through [] (comps (cstr f.fullName)) = some q)
    (hq : ¬ m.tree.Blocks q) :
    (Prog.atomic (mkdirNode c perm f)).Amid Machine.Gains (fun _ t => NamesDir t f.fullName) (fun _ _ => False) m := by
  refine Prog.Amid.atomic fun t ht => ?_
  have hfree' := ht.tree.linkFree hfree
  rcases mkdirNode_cases c perm f t with ⟨t', ht', hrun⟩ | ⟨e, he, hrun⟩
  · rw [hrun]
    obtain ⟨hgains, -, hdir⟩ := gains_mkdir hfree' ht'
    exact ⟨hgains, fun t'' ht'' => hdir.gains (hgains.tree.linkFree hfree') ht''⟩
  · rw [hrun]
    have hthrough' : t.tree.through [] (comps (cstr f.fullName)) = some q := by rw [ht.tree.through, hthrough]
    have hdir : NamesDir t f.fullName := by
      rcases leads_or_mkdir _ hfree' habs (ht.resolve hfree hparent) hthrough' with ⟨q', hq', hn⟩ | ⟨t', ht'⟩
      · obtain rfl := Option.some.inj ((through_of_machine hfree' habs hq').symm.trans hthrough')
        exact ⟨q', hq', isDir_of_not_blocks (fun hb => hq ((ht.tree.blocks_iff q').1 hb)) hn⟩
      · rcases he with he | he
        · exact nomatch (hmkdir _).symm.trans he
        · exact nomatch ht'.symm.trans he
    exact ⟨.ticked t, fun t'' ht'' => hdir.gains hfree' ((Machine.Gains.ticked t).trans ht'')⟩

/-- `make_dir` makes a directory or finds one, also when another process is faster. -/
theorem amid_makeDir (perm : Mode) (hmkdir : ∀ k, c.mkdir k = none) (hchmod : ∀ k, c.chmod k = none)
    (hfree : m.tree.LinkFree) (habs : Absolute f.fullName) (hparent : m.resolve f.parentName = .ok d)
    (hthrough : m.tree.through [] (comps (cstr f.fullName)) = some q) (hq : ¬ m.tree.Blocks q) :
    (Calls.makeDir c perm f).Amid Machine.Gains (fun _ t => NamesDir t f.fullName) (fun _ _ => False) m := by
  unfold Calls.makeDir
  refine Prog.Amid.bind (amid_mkdirNode perm hmkdir hfree habs hparent hthrough hq) fun r t ht hdir => ?_
  have hfree' := ht.tree.linkFree hfree
  have hset : ∀ t', t.Gains t' → (Calls.setPermissions c perm f).Amid Machine.Gains (fun _ t => NamesDir t f.fullName)
      (fun _ _ => False) t' := by
    intro t' ht'
    refine Prog.Amid.mono (amid_setPermissions (P := fun t => t.tree.LinkFree ∧ NamesDir t f.fullName) perm hchmod
      (fun t h => ?_) (fun t t' h ht => ⟨ht.tree.linkFree h.1, h.2.gains h.1 ht⟩) (fun t p _ _ => gains_chmodAt t _ p)
      ⟨ht'.tree.linkFree hfree', hdir.gains hfree' ht'⟩) (fun _ _ h => h.2) fun _ _ => id
    obtain ⟨md, hmd, -⟩ := stat_of_namesDir h.2
    exact ⟨md, hmd⟩
  cases r with
  | none => exact Prog.Amid.tryCatch (hset t (.refl t)) fun _ _ _ h => h.elim
  | some e =>
    refine Prog.Amid.bind (Q := fun b _ => b = true) (Prog.Amid.atomic fun t' ht' => ?_) ?_
    · obtain ⟨md, hstat, -⟩ := stat_of_namesDir (hdir.gains hfree' ht')
      rw [run_exists?, hstat]
      exact ⟨.refl t', fun _ _ => rfl⟩
    · rintro _ t' ht' rfl
      refine Prog.Amid.bind (Q := fun b _ => b = true) (Prog.Amid.atomic fun t'' ht'' => ?_) ?_
      · obtain ⟨md, hstat, hbit⟩ := stat_of_namesDir (hdir.gains hfree' (ht'.trans ht''))
        rw [run_isDirectory, hstat]
        exact ⟨.refl t'', fun _ _ => hbit⟩
      · rintro _ t'' ht'' rfl
        exact Prog.Amid.tryCatch (hset t'' (ht'.trans ht'')) fun _ _ _ h => h.elim

/-- What a path leads through, its parent leads to. -/
theorem through_parentName (habs : Absolute f.fullName) (hthrough : m.tree.through [] (comps (cstr f.fullName)) = some q)
    (hq : ¬ m.tree.Blocks q) : ∃ d, m.tree.through [] (comps (cstr f.parentName)) = some d ∧ ¬ m.tree.Blocks d := by
  rcases comps_parentName habs with hsame | ⟨base, k, hcomps, hbase⟩
  · exact ⟨q, hsame ▸ hthrough, hq⟩
  · rw [hcomps, through_append, Option.bind_eq_some_iff] at hthrough
    obtain ⟨d, hd, hrest⟩ := hthrough
    refine ⟨d, (hbase m.tree).1 ▸ hd, fun hblocks => ?_⟩
    change (if m.tree.Blocks d then none else _) = some q at hrest
    rw [if_pos hblocks] at hrest
    exact absurd hrest (by simp)

/-- `g` is the parent of `f`, or its name if that did not resolve in `m`. -/
def NamesParent (m : Machine) (f g : File) (t : Machine) : Prop :=
  (g = ⟨f.parentName⟩ ∧ ∃ e, m.resolve f.parentName = .error e) ∨ ∃ d, g = ⟨render d⟩ ∧ t.resolve f.parentName = .ok d

theorem amid_parent (c : Creator) (habs : Absolute f.fullName) (hfree : m.tree.LinkFree) :
    (Prog.atomic (parent c.toHost f)).Amid Machine.Gains (NamesParent m f) (fun _ _ => False) m := by
  refine Prog.Amid.atomic fun t ht => ?_
  have hrun : (parent c.toHost f).run t = .ok (father t f) t := run_new c.toHost t (absolute_parentName habs)
  rw [hrun]
  refine ⟨.refl t, fun t' ht' => ?_⟩
  unfold father
  cases hres : t.resolve f.parentName with
  | ok d =>
    rw [stored_of_resolve hres]
    exact .inr ⟨d, rfl, ht'.resolve (ht.tree.linkFree hfree) hres⟩
  | error e =>
    rw [stored_of_error hres]
    cases hm : m.resolve f.parentName with
    | ok d =>
      rw [ht.resolve hfree hm] at hres
      exact absurd hres (by simp)
    | error e' => exact .inl ⟨rfl, e', hm⟩

/-- Only a parent that was missing in `m` is missing when it is looked for. -/
theorem amid_exists_parent {g : File} (habs : Absolute f.fullName) (hfree : t.tree.LinkFree) (hg : NamesParent m f g t) :
    (Prog.atomic (exists? g)).Amid Machine.Gains
      (fun b t' => (b = true ∧ ∃ d, t'.resolve f.parentName = .ok d) ∨
        (b = false ∧ g = ⟨f.parentName⟩ ∧ ∃ e, m.resolve f.parentName = .error e))
      (fun _ _ => False) t := by
  refine Prog.Amid.atomic fun t' ht' => ?_
  rw [run_exists?]
  refine ⟨.refl t', fun t'' ht'' => ?_⟩
  have hfree' := ht'.tree.linkFree hfree
  rcases hg with ⟨rfl, hm⟩ | ⟨d, rfl, hd⟩
  · cases hstat : t'.stat f.parentName with
    | ok md =>
      obtain ⟨d, -, hd, -, -⟩ := stat_eq_ok hstat
      exact .inl ⟨rfl, d, ht''.resolve hfree' hd⟩
    | error e => exact .inr ⟨rfl, rfl, hm⟩
  · have hd' := ht'.resolve hfree hd
    have hreal := real_of_resolve (absolute_parentName habs) hd'
    obtain ⟨n, hn⟩ := Option.ne_none_iff_exists'.1 hreal.node_ne_none
    rw [stat_render hreal hn]
    exact .inl ⟨rfl, d, ht''.resolve hfree' hd'⟩

/-- **What `make_path` does alone, it does amid others that make directories.** -/
theorem amid_makePath (perm : Mode) (hmkdir : ∀ k, c.mkdir k = none) (hchmod : ∀ k, c.chmod k = none)
    (hfree : m.tree.LinkFree) (habs : Absolute f.fullName)
    (hthrough : m.tree.through [] (comps (cstr f.fullName)) = some q) (hq : ¬ m.tree.Blocks q)
    (halone : ∃ m', (makePath c depth perm f).run m = .ok () m') :
    (Calls.makePath c depth perm f).Amid Machine.Gains (fun _ t => NamesDir t f.fullName) (fun _ _ => False) m := by
  induction depth generalizing m perm f q with
  | zero =>
    obtain ⟨m', hrun⟩ := halone
    exact absurd hrun (by simp [makePath])
  | succ depth ih =>
    have hmake : ∀ t d, m.Gains t → t.resolve f.parentName = .ok d → (Calls.makeDir c perm f).Amid Machine.Gains
        (fun _ t => NamesDir t f.fullName) (fun _ _ => False) t := fun t d ht hd =>
      amid_makeDir perm hmkdir hchmod (ht.tree.linkFree hfree) habs hd (by rw [ht.tree.through, hthrough])
        fun hb => hq ((ht.tree.blocks_iff q).1 hb)
    rw [Calls.makePath]
    refine Prog.Amid.bind (amid_parent c habs hfree) fun g t ht hg =>
      Prog.Amid.bind (amid_exists_parent habs (ht.tree.linkFree hfree) hg) fun b t' ht' hb => ?_
    rcases hb with ⟨rfl, d, hd⟩ | ⟨rfl, rfl, e, he⟩
    · exact hmake t' d (ht.trans ht') hd
    · -- the parent was missing, so it is made alone as well
      obtain ⟨d, hd, hnot⟩ := through_parentName habs hthrough hq
      obtain ⟨m', hrun⟩ := halone
      rw [run_makePath_of_missing c depth perm habs he] at hrun
      obtain ⟨_, m₁, hrun₁, -⟩ := exists_of_bind_ok hrun
      have hrec := ih (f := ⟨f.parentName⟩) (perm ||| sIrwxu) hfree (absolute_parentName habs) hd hnot ⟨m₁, hrun₁⟩
      refine Prog.Amid.bind (hrec.later (ht.trans ht')) fun _ t'' ht'' hdir => ?_
      obtain ⟨d', hd', -⟩ := hdir
      exact hmake t'' d' ((ht.trans ht').trans ht'') hd'

/-! ## Together -/

theorem within_setPermissions (c : Creator) (perm : Mode) (f : File) : (Calls.setPermissions c perm f).Within 2 := by
  unfold Calls.setPermissions
  refine Prog.Within.bind (m := 1) (n := 1) (Prog.within_atomic _) fun md => ?_
  split_ifs
  · refine Prog.Within.bind (m := 1) (n := 0) (Prog.within_atomic _) fun r => ?_
    cases r with
    | none => exact Prog.within_ret 0 _
    | some e => exact Prog.within_fail 0 _
  · exact Prog.within_ret 1 _

theorem within_makeDir (c : Creator) (perm : Mode) (f : File) : (Calls.makeDir c perm f).Within 5 := by
  have hset : ∀ handle : Stop → Calls Unit, (∀ stop, (handle stop).Within 0) →
      (tryCatch (Calls.setPermissions c perm f) handle).Within 2 := fun handle hh =>
    Prog.Within.tryCatch (within_setPermissions c perm f) hh
  have hthrow : ∀ stop : Stop, (throw stop : Calls Unit).Within 0 := Prog.within_fail 0
  unfold Calls.makeDir
  refine Prog.Within.bind (m := 1) (n := 4) (Prog.within_atomic _) fun r => ?_
  cases r with
  | none =>
    refine (hset _ fun stop => ?_).mono (by omega)
    split
    · exact hthrow _
    · exact hthrow _
  | some e =>
    refine Prog.Within.bind (m := 1) (n := 3) (Prog.within_atomic _) fun b => ?_
    split_ifs
    · refine Prog.Within.bind (m := 1) (n := 2) (Prog.within_atomic _) fun b => ?_
      split_ifs
      · refine hset _ fun stop => ?_
        split
        · exact Prog.within_ret 0 _
        · exact hthrow _
      · exact Prog.within_ret 2 _
    · exact Prog.within_fail 3 _

theorem within_makePath (c : Creator) (depth : Nat) (perm : Mode) (f : File) :
    (Calls.makePath c depth perm f).Within (7 * depth) := by
  induction depth generalizing perm f with
  | zero => exact Prog.within_fail _ _
  | succ depth ih =>
    rw [Calls.makePath, show 7 * (depth + 1) = 1 + (1 + (7 * depth + 5)) by omega]
    refine Prog.Within.bind (Prog.within_atomic _) fun father => Prog.Within.bind (Prog.within_atomic _) fun b => ?_
    split_ifs
    · exact Prog.Within.bind (ih _ father) fun _ => within_makeDir c perm f
    · exact (within_makeDir c perm f).mono (by omega)

/-- **Calls of `make_path` made at once all succeed exactly when each succeeds alone**, in any order of their system calls
and while others make directories and change permissions; and each ends. -/
theorem makePaths_together_iff {ι : Type} [DecidableEq ι] (c : Creator) (hmkdir : ∀ k, c.mkdir k = none)
    (hchmod : ∀ k, c.chmod k = none) (m : Machine) (hfree : m.tree.LinkFree) (depth : ι → Nat) (perm : ι → Mode)
    (f : ι → File) (habs : ∀ i, Absolute (f i).fullName) :
    (∀ is t, (pool Machine.Gains).Path ⟨m, fun i => Calls.makePath c (depth i) (perm i) (f i)⟩ is t → ∀ i,
        is.count (some i) ≤ 7 * depth i ∧ (∀ stop, t.progs i ≠ .fail stop) ∧
          (t.progs i = .ret () → NamesDir t.state (f i).fullName)) ↔
      ∀ i, ∃ m', (makePath c (depth i) (perm i) (f i)).run m = .ok () m' ∧ NamesDir m' (f i).fullName := by
  constructor
  · intro h i
    obtain ⟨is, hpath⟩ := pool_alone (S := Machine.Gains)
      (s := ⟨m, fun i => Calls.makePath c (depth i) (perm i) (f i)⟩) i rfl
    obtain ⟨-, hnot, hdir⟩ := h is _ hpath i
    rw [Calls.run_makePath] at hnot hdir
    simp only [Function.update_self] at hnot hdir
    cases hrun : (makePath c (depth i) (perm i) (f i)).run m with
    | ok _ m' =>
      rw [hrun] at hdir
      exact ⟨m', rfl, hdir rfl⟩
    | error stop m' =>
      rw [hrun] at hnot
      exact absurd rfl (hnot stop)
  · intro h is t hr i
    have hcount := pool_count_le (within_makePath c (depth i) (perm i) (f i)) hr
    have hall := pool_amid (R := Machine.Gains) (Q := fun i _ t => NamesDir t (f i).fullName) (E := fun _ _ _ => False) (fun _ _ => id) (fun i => by
      obtain ⟨m', hrun, q, hq, hdir⟩ := h i
      have hpost := triple_makePath c (depth i) (perm i) (habs i) hfree m rfl
      rw [hrun] at hpost
      have hgains := hpost.1
      have hthrough := through_of_machine (hgains.tree.linkFree hfree) (habs i) hq
      rw [hgains.tree.through] at hthrough
      exact amid_makePath (perm i) hmkdir hchmod hfree (habs i) hthrough
        (fun hb => (hgains.tree.blocks q hb).2 hdir) ⟨m', hrun⟩) hr
    have hi := hall.2 i
    refine ⟨hcount, fun stop hstop => ?_, fun hret => ?_⟩
    · rw [hstop] at hi
      exact hi t.state (.refl _)
    · rw [hret] at hi
      exact hi t.state (.refl _)

/-- The same path twice. -/
theorem makePaths_together_iff_twice :
    (∀ is t, (pool Machine.Gains).Path ⟨bare, fun _ : Bool => Calls.makePath willing 2 0o755 fileA⟩ is t → ∀ i,
        is.count (some i) ≤ 7 * 2 ∧ (∀ stop, t.progs i ≠ .fail stop) ∧
          (t.progs i = .ret () → NamesDir t.state fileA.fullName)) ↔
      ∀ _ : Bool, ∃ m', (makePath willing 2 0o755 fileA).run bare = .ok () m' ∧ NamesDir m' fileA.fullName :=
  makePaths_together_iff willing (fun _ => rfl) (fun _ => rfl) bare (linkFree_ofRoot _) (fun _ => 2) (fun _ => 0o755)
    (fun _ => fileA) fun _ => ⟨text "a", rfl⟩

end File

end OksSystem
