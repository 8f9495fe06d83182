import Mathlib.Data.List.Perm.Subperm
import OksSystem.File.Stored
import OksSystem.Lib.Subtree

/-!
# The recursion of `remove`

* `mode_dir`, `mode_other` : what `is_directory` says of a node;
* `triple_directory`, `triple_unlink`, `triple_rmdir` : what the parts of `remove` return and leave;
* `triple_rmdir_empty`, `triple_remove_other` : how one node is deleted;
* `triple_remove` : the rule for one level of the recursion;
* `remove_sub` : `remove` adds no node.
-/

namespace OksSystem
open ByteBuffer EStateM FileTree File

/-! ## The bit of a directory -/

/-- Whether the type has the bit of a directory. -/
def FileType.dirBit (type : FileType) : Bool := type.bits &&& sIfdir != 0

theorem and_sIfdir (b : Mode) : (b &&& sIfdir != 0) = b.getLsbD 14 := by
  have htwo : sIfdir = BitVec.twoPow 32 14 := by decide
  rw [htwo, BitVec.and_twoPow]
  cases b.getLsbD 14 <;> decide

theorem mode_dir (perm : Perm) : (mode (.dir perm) &&& sIfdir != 0) = true := by
  rw [and_sIfdir]
  unfold mode
  rw [BitVec.getLsbD_or, show sIfdir.getLsbD 14 = true by decide, Bool.true_or]

theorem mode_other (a : Inode) : (mode (.other a) &&& sIfdir != 0) = a.type.dirBit := by
  unfold FileType.dirBit
  rw [and_sIfdir, and_sIfdir]
  unfold mode
  rw [BitVec.getLsbD_or, BitVec.getLsbD_setWidth, BitVec.getLsbD_of_ge a.perm 14 (by decide), Bool.and_false, Bool.or_false]

/-! ## The parts of `remove` -/

section Parts

variable {host : Host} {m : Machine} {f : File} {p : List Name}

/-- The machine after one decision of the host. -/
def Machine.ticked (m : Machine) : Machine := { m with clock := m.clock + 1 }

theorem run_tick : tick.run m = .ok m.clock m.ticked := rfl

theorem run_directory_ok (host : Host) {names : List Str} (hf : Absolute f.fullName) (hopen : host.opendir m.clock = none)
    (hnames : m.opendir f.fullName = .ok names) :
    ∃ v, v.items = ((proper (host.readdir m.clock names)).map fun name =>
        (⟨m.stored (f.fullName ++ slash :: name)⟩ : File)) ∧
      (directory host f).run m = match host.closedir m.clock with
        | some e => .error (.issue (.osSystemCall e (text "closedir") (cstr (text "on directory " ++ f.fullName))))
            m.ticked
        | none => .ok v m.ticked := by
  obtain ⟨v, hrun, hitems⟩ := run_listing host m.ticked (v := ⟨[], 0⟩) hf (proper (host.readdir m.clock names))
    (by simp)
  refine ⟨v, hitems, ?_⟩
  have hnames' : m.ticked.opendir f.fullName = .ok names := hnames
  unfold directory
  rw [run_bind_ok run_tick, run_bind_ok (run_get _)]
  simp only [hopen, hnames']
  rw [run_bind_ok hrun]
  cases host.closedir m.clock <;> rfl

theorem run_directory_error (host : Host) {e : Errno} (h : host.opendir m.clock = some e ∨ m.opendir f.fullName = .error e) :
    ∃ e', (directory host f).run m =
      .error (.issue (.osSystemCall e' (text "opendir") (cstr (text "on directory " ++ f.fullName)))) m.ticked := by
  unfold directory
  rw [run_bind_ok run_tick, run_bind_ok (run_get _)]
  have hticked : m.ticked.opendir f.fullName = m.opendir f.fullName := rfl
  rw [hticked]
  cases hopen : host.opendir m.clock with
  | some e' => exact ⟨e', rfl⟩
  | none =>
    rcases h with h | h
    · rw [hopen] at h
      cases h
    · rw [h]
      exact ⟨e, rfl⟩

/-- `directory` changes nothing, and returns files for entries. -/
theorem triple_directory (host : Host) (m : Machine) (hf : Absolute f.fullName) :
    Triple (· = m) (directory host f)
      (fun v m' => m' = m.ticked ∧ ∃ names, m.opendir f.fullName = .ok names ∧
        ∀ g ∈ v.items, ∃ name ∈ proper names, g = ⟨m.stored (f.fullName ++ slash :: name)⟩)
      (· = m.ticked) := by
  cases hnames : m.opendir f.fullName with
  | error e =>
    obtain ⟨e', hrun⟩ := run_directory_error host (.inr hnames)
    exact Triple.of_run_error hrun rfl
  | ok names =>
    cases hopen : host.opendir m.clock with
    | some e =>
      obtain ⟨e', hrun⟩ := run_directory_error host (.inl hopen)
      exact Triple.of_run_error hrun rfl
    | none =>
      obtain ⟨v, hitems, hrun⟩ := run_directory_ok host hf hopen hnames
      cases hclose : host.closedir m.clock with
      | some e =>
        rw [hclose] at hrun
        exact Triple.of_run_error hrun rfl
      | none =>
        rw [hclose] at hrun
        refine Triple.of_run_ok hrun ⟨rfl, names, rfl, fun g hg => ?_⟩
        rw [hitems] at hg
        obtain ⟨name, hname, rfl⟩ := List.mem_map.1 hg
        obtain ⟨hmem, hproper⟩ := List.mem_filter.1 hname
        exact ⟨name, List.mem_filter.2 ⟨List.Subperm.subset (host.readdir_subperm _ _) hmem, hproper⟩, rfl⟩

theorem triple_isDirectory (f : File) (m : Machine) :
    Triple (· = m) (isDirectory f)
      (fun b m' => m' = m ∧ ∃ mode, m.stat f.fullName = .ok mode ∧ b = (mode &&& sIfdir != 0)) (· = m) := by
  have hrun := run_isDirectory f (m := m)
  cases hstat : m.stat f.fullName with
  | ok mode =>
    rw [hstat] at hrun
    exact Triple.of_run_ok hrun ⟨rfl, mode, rfl, rfl⟩
  | error e =>
    rw [hstat] at hrun
    exact Triple.of_run_error hrun rfl

section Deleting

variable {call : Tree → Nat → List Name → List (Comp Name) → Except Failure Tree} {P E : Machine → Prop}

theorem run_removeNode_ok {t : Tree} (hhost : host.remove m.clock = none) (h : m.remove call f.fullName = .ok t) :
    (removeNode host call f).run m = .ok none { m.ticked with tree := t } := by
  unfold removeNode
  rw [run_bind_ok run_tick, run_bind_ok (run_get _)]
  have hticked : m.ticked.remove call f.fullName = .ok t := h
  rw [hticked, hhost]
  rfl

theorem triple_removeNode (hkeep : ∀ m, P m → E m.ticked)
    (hdel : ∀ m t, P m → m.remove call f.fullName = .ok t → E { m.ticked with tree := t }) :
    Triple P (removeNode host call f) (fun _ => E) E := by
  intro m hm
  unfold removeNode
  rw [run_bind_ok run_tick, run_bind_ok (run_get _)]
  have hticked : m.ticked.remove call f.fullName = m.remove call f.fullName := rfl
  rw [hticked]
  cases hhost : host.remove m.clock with
  | some e => exact hkeep m hm
  | none =>
    cases hcall : m.remove call f.fullName with
    | error e => exact hkeep m hm
    | ok t => exact hdel m t hm hcall

/-- A call that deletes, and what it throws when that fails. -/
theorem triple_deleting {fails : Errno → Stop} (hkeep : ∀ m, P m → E m.ticked)
    (hdel : ∀ m t, P m → m.remove call f.fullName = .ok t → E { m.ticked with tree := t }) :
    Triple P (do if let some e ← removeNode host call f then throw (fails e)) (fun _ => E) E := by
  apply Triple.bind (triple_removeNode hkeep hdel)
  intro r
  cases r with
  | none => exact Triple.pure _ fun _ => id
  | some e => exact Triple.throw _ fun _ => id

theorem triple_unlink (hkeep : ∀ m, P m → E m.ticked)
    (hdel : ∀ m t, P m → m.remove FileTree.unlink f.fullName = .ok t → E { m.ticked with tree := t }) :
    Triple P (File.unlink host f) (fun _ => E) E := triple_deleting hkeep hdel

theorem triple_rmdir (hkeep : ∀ m, P m → E m.ticked)
    (hdel : ∀ m t, P m → m.remove FileTree.rmdir f.fullName = .ok t → E { m.ticked with tree := t }) :
    Triple P (File.rmdir host f) (fun _ => E) E := triple_deleting hkeep hdel

end Deleting

/-! ## One node -/

section Node

variable {n : Name} {depth : Nat}

theorem isDirectory_dir (h : m.tree.IsDir p) : (isDirectory ⟨render p⟩).run m = .ok true m := by
  obtain ⟨perm, hperm⟩ := h
  rw [run_isDirectory, stat_render (IsDir.real ⟨perm, hperm⟩) hperm]
  simp only [mode_dir]

theorem isDirectory_other {a : Inode} (h : m.tree.node p = some (.other a)) :
    (isDirectory ⟨render p⟩).run m = .ok a.type.dirBit m := by
  rw [run_isDirectory, stat_render ⟨_, h, by simp⟩ h]
  simp only [mode_other]

theorem comps_render_append (p : List Name) (n : Name) :
    comps (render (p ++ [n])) = .empty :: p.map .name ++ [.name n] := by
  rw [comps_render (by simp), List.map_append]
  rfl

theorem lookup_render {t : Tree} (h : t.IsDir p) :
    lookup t maxLinks [] (comps (render (p ++ [n]))) = .ok (p, .name n, false) := by
  rw [comps_render_append, lookup_empty t.root]
  exact lookup_names [] h

theorem triple_rmdir_empty (hhost : host.remove m.clock = none) (hdir : m.tree.IsDir (p ++ [n]))
    (hnil : m.tree.entries (p ++ [n]) = []) :
    Triple (· = m) (File.rmdir host ⟨render (p ++ [n])⟩) (fun _ m' => Without m.tree {p ++ [n]} m'.tree)
      fun _ => False := by
  have hlook := lookup_render (n := n) (hdir.real.isDir_parent (List.cons_ne_nil n []))
  have hrmdir := rmdir_of_lookup hlook hdir hnil
  refine Triple.bind_ok (run_removeNode_ok hhost (remove_render.2 hrmdir)) (Triple.pure _ ?_)
  rintro _ rfl
  exact without_erase hnil

/-- `remove` unlinks what does not have the bit of a directory. -/
theorem triple_remove_other {a : Inode} (hhost : host.remove m.clock = none)
    (ha : m.tree.node (p ++ [n]) = some (.other a)) (hbit : a.type.dirBit = false) :
    Triple (· = m) (remove host (depth + 1) ⟨render (p ++ [n])⟩) (fun _ m' => Without m.tree {p ++ [n]} m'.tree)
      fun _ => False := by
  have hreal : m.tree.Real (p ++ [n]) := ⟨_, ha, by simp⟩
  have hdir : ¬ m.tree.IsDir (p ++ [n]) := by
    rintro ⟨perm, hperm⟩
    rw [ha] at hperm
    cases hperm
  have hlook := lookup_render (n := n) (hreal.isDir_parent (List.cons_ne_nil n []))
  obtain ⟨hnil, hunlink⟩ := unlink_of_lookup hlook hreal.node_ne_none hdir rfl
  have hisDir := isDirectory_other ha
  rw [hbit] at hisDir
  unfold remove
  refine Triple.bind_ok hisDir (Triple.ite (fun hb => absurd hb (by simp)) fun _ => ?_)
  refine Triple.bind_ok (run_removeNode_ok hhost (remove_render.2 hunlink)) (Triple.pure _ ?_)
  rintro _ rfl
  exact without_erase hnil

end Node

end Parts

/-! ## The recursion -/

/-- What is to be shown of the calls on one level for `I` to hold throughout; `J m` holds while the children of a
directory listed in `m` are removed. -/
theorem triple_remove {host : Host} {depth : Nat} {f : File} {I : Machine → Prop} {J : Machine → Machine → Prop}
    (hf : Absolute f.fullName) (htick : ∀ m, I m → I m.ticked)
    (hunlink : ∀ m t mode, I m → m.stat f.fullName = .ok mode → (mode &&& sIfdir != 0) = false →
      m.remove FileTree.unlink f.fullName = .ok t → I { m.ticked with tree := t })
    (hloop : ∀ m, I m → J m m.ticked ∧ ∀ m', J m m' → I m')
    (hchild : ∀ m names, I m → m.opendir f.fullName = .ok names → ∀ name ∈ proper names,
      Triple (J m) (do
        let g ← copy host ⟨m.stored (f.fullName ++ slash :: name)⟩
        if ← exists? g then remove host depth g) (fun _ => J m) I)
    (hrmdir : ∀ m t, I m → m.remove FileTree.rmdir f.fullName = .ok t → I { m.ticked with tree := t }) :
    Triple I (remove host (depth + 1) f) (fun _ => I) I := by
  unfold remove
  apply Triple.of_forall
  intro m hm
  refine Triple.bind ((triple_isDirectory f m).mono (fun _ => id) (fun _ _ => id) fun _ h => h ▸ hm) fun b => ?_
  apply Triple.ite
  · intro _
    apply Triple.of_forall
    rintro m₁ ⟨rfl, -⟩
    refine Triple.bind ((triple_directory host m₁ hf).mono (fun _ => id) (fun _ _ => id) fun _ h => h ▸ htick _ hm)
      fun v => ?_
    apply Triple.of_forall
    rintro m₂ ⟨rfl, names, hnames, hitems⟩
    obtain ⟨hstart, hend⟩ := hloop m₁ hm
    refine Triple.bind (Q := fun _ => I) ?_ fun _ => triple_rmdir htick hrmdir
    refine Triple.mono (P := J m₁) (Q := fun _ => J m₁) (E := I) ?_ (fun _ h => h ▸ hstart) (fun _ => hend)
      fun _ => id
    apply Triple.forM
    intro g hg
    obtain ⟨name, hname, rfl⟩ := hitems g hg
    exact hchild m₁ names hm hnames name hname
  · intro hb
    apply Triple.of_forall
    rintro m₁ ⟨rfl, mode, hstat, rfl⟩
    refine triple_unlink (P := (· = m₁)) ?_ ?_
    · rintro _ rfl
      exact htick _ hm
    · rintro _ t rfl ht
      exact hunlink _ t mode hm hstat (Bool.eq_false_iff.2 hb) ht

/-- What `remove` does with one child of a directory. -/
theorem triple_child {host : Host} {depth : Nat} {g : File} {I : Machine → Prop} (hg : Absolute g.fullName)
    (h : ∀ f : File, Absolute f.fullName → Triple I (remove host depth f) (fun _ => I) I) :
    Triple I (do
      let f ← copy host g
      if ← exists? f then remove host depth f) (fun _ => I) I := by
  apply Triple.of_forall
  intro m hm
  refine Triple.bind_ok (run_new host m hg) (Triple.bind_ok (run_exists? _) (Triple.ite ?_ ?_))
  · intro _
    exact (h _ (absolute_stored m hg)).mono (fun _ heq => heq ▸ hm) (fun _ _ => id) fun _ => id
  · intro _
    exact Triple.pure _ fun _ heq => heq ▸ hm

theorem sub_of_remove {call : Tree → Nat → List Name → List (Comp Name) → Except Failure Tree} {m : Machine} {t : Tree}
    {path : Str} (hcall : ∀ links start cs t', call m.tree links start cs = .ok t' → Sub t' m.tree)
    (h : m.remove call path = .ok t) : Sub t m.tree := by
  unfold Machine.remove at h
  split_ifs at h
  split at h
  · cases h
  · cases h
    exact hcall _ _ _ _ ‹_›

/-- `remove` adds no node. -/
theorem remove_sub (host : Host) (t : Tree) (depth : Nat) {f : File} (hf : Absolute f.fullName) :
    Triple (fun m => Sub m.tree t) (remove host depth f) (fun _ m => Sub m.tree t) (fun m => Sub m.tree t) := by
  induction depth generalizing f with
  | zero => exact Triple.throw _ fun _ => id
  | succ depth ih =>
    apply triple_remove (J := fun _ m' => Sub m'.tree t) hf
    · exact fun _ => id
    · intro m t' mode hm _ _ ht'
      exact (sub_of_remove (fun _ _ _ _ => unlink_sub) ht').trans hm
    · exact fun m hm => ⟨hm, fun _ => id⟩
    · intro m names _ _ name _
      exact triple_child (absolute_stored m (hf.append (slash :: name))) fun f hf => ih hf
    · intro m t' hm ht'
      exact (sub_of_remove (fun _ _ _ _ => rmdir_sub) ht').trans hm

/-- A node that is gone stays away. -/
theorem remove_gone (host : Host) (x : List Name) (depth : Nat) {f : File} (hf : Absolute f.fullName) :
    Triple (fun m => m.tree.node x = none) (remove host depth f) (fun _ m => m.tree.node x = none)
      (fun m => m.tree.node x = none) := by
  apply Triple.of_forall
  intro m hm
  refine (remove_sub host m.tree depth hf).mono ?_ ?_ ?_
  · rintro _ rfl
    exact Sub.refl _
  · exact fun _ _ hsub => hsub.none hm
  · exact fun _ hsub => hsub.none hm

theorem rmdir_gone (host : Host) (x : List Name) (f : File) :
    Triple (fun m => m.tree.node x = none) (File.rmdir host f) (fun _ m => m.tree.node x = none)
      (fun m => m.tree.node x = none) := by
  refine triple_rmdir (fun _ => id) ?_
  intro m t hm ht
  exact (sub_of_remove (fun _ _ _ _ => rmdir_sub) ht).none hm

end OksSystem
