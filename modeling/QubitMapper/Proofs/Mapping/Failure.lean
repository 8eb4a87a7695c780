import QubitMapper.Proofs.Mapping.Run
import QubitMapper.Proofs.Routing.Kept

/-!
# When the mapping pass fails

The pass works on the kernel in place and takes nothing back. All that can be checked before is
checked before the kernel is touched, and all that others are to see is published after the last
step that may fail. In between, fresh qubits are added and operations are rewired.

## Main results

* `Mapping.run_failure_keeps`: what a run that fails leaves as it was.
* `Mapping.run_failure_changes_kernel`: a run that fails in the middle of routing has touched the
  kernel.
-/

namespace QubitMapper

/-- What stays of a compilation while its kernel is worked on. -/
structure Compilation.Kept (c c' : Compilation) : Prop where
  kernel : c.kernel.Kept c'.kernel
  properties : c'.properties = c.properties

/-- What stays of it while nothing in the entry block is moved. -/
structure Compilation.Grown (c c' : Compilation) : Prop extends c.Kept c' where
  entry : c.kernel.entry.Sublist c'.kernel.entry

section Relations

variable {c c' c'' : Compilation}

theorem Compilation.Kept.trans (h : c.Kept c') (h' : c'.Kept c'') : c.Kept c'' :=
  ⟨h.kernel.trans h'.kernel, h'.properties.trans h.properties⟩

theorem Compilation.Grown.refl (c : Compilation) : c.Grown c := ⟨⟨.refl c.kernel, rfl⟩, .refl _⟩

theorem Compilation.Grown.trans (h : c.Grown c') (h' : c'.Grown c'') : c.Grown c'' :=
  ⟨h.toKept.trans h'.toKept, h.entry.trans h'.entry⟩

end Relations

namespace Mapping

variable {files : FileReader} {target : Target} {c : Compilation}

/-! ## Adding fresh qubits -/

/-- Fresh qubits are added between the operations of the entry block. -/
theorem insertAncillas_grows (count : Nat) : ∀ (l : Labelling) (position : Nat) (c : Compilation),
    Meets (insertAncillas l position count) c
      (fun l' c' => c.Grown c' ∧ ∃ fresh, l'.sources.toList = l.sources.toList ++ fresh ∧
        ∀ x ∈ fresh, c.kernel.op? x = none)
      (fun _ c' => c.Grown c') := by
  induction count with
  | zero => exact fun l position c => ⟨.refl c, [], by simp⟩
  | succ count ih =>
      intro l position c
      unfold insertAncillas
      rw [meets_get_bind]
      cases h : c.kernel.insert 0 position .alloc [] with
      | error e => exact .refl c
      | ok out =>
          obtain ⟨k, op, results⟩ := out
          obtain ⟨hkept, hnew⟩ := Kernel.Kept.insert h
          have hgrown : c.Grown { c with kernel := k } :=
            ⟨⟨hkept, rfl⟩, Kernel.sublist_entry_insert h⟩
          rw [Compile.liftCircuit_ok, pure_bind]
          show Meets (Compile.liftCircuit (Kernel.resultAt results 0) >>= _)
            { c with kernel := k } _ _
          cases Kernel.resultAt results 0 with
          | error e => exact hgrown
          | ok w =>
              rw [Compile.liftCircuit_ok, pure_bind]
              refine (ih _ (position + 1) { c with kernel := k }).mono ?_
                fun _ c' h' => hgrown.trans h'
              rintro l' c' ⟨hgrown', fresh, hsources, hfresh⟩
              refine ⟨hgrown.trans hgrown', op :: fresh, by simp [hsources], ?_⟩
              rw [List.forall_mem_cons]
              exact ⟨hnew, fun x hx => hkept.op?_eq_none (hfresh x hx)⟩

/-! ## The work on the kernel -/

/-- Wherever routing stops, nothing in the entry block has been moved. -/
theorem route_grows (task : RoutingTask) (sources : List Nat) (placement : Placement)
    (c : Compilation) :
    Meets (route task sources placement) c (fun _ c' => c.Grown c') (fun _ c' => c.Grown c') := by
  have hkeeps : Keeps _ _ _ :=
    Router.keeps_route task sources (Router.start c.kernel placement task.device)
  have hgrown : ∀ s, Router.Kept (Router.start c.kernel placement task.device) s →
      c.Grown { c with kernel := s.kernel } := by
    intro s h
    refine ⟨⟨h.kernel, rfl⟩, ?_⟩
    have hblocks : s.kernel.blocks = c.kernel.blocks := h.blocks
    simp only [Kernel.entry, hblocks]
    exact .refl _
  unfold route
  rw [meets_get_bind]
  unfold Keeps Meets at hkeeps
  cases hrun : Router.route task sources (Router.start c.kernel placement task.device) with
  | ok _ s =>
      rw [hrun] at hkeeps
      exact hgrown s hkeeps
  | error e s =>
      rw [hrun] at hkeeps
      exact hgrown s hkeeps

/-- Putting the block into order fails only for a reason of the circuit. -/
theorem reorder_keeps (emitted : Array Nat) (c : Compilation) :
    Meets (reorder emitted) c (fun _ c' => c.Kept c')
      (fun e c' => c.Kept c' ∧ ∃ reason, e = .circuit reason) := by
  unfold reorder
  rw [meets_get_bind]
  dsimp only
  cases horder : c.kernel.setBlockOrder 0
      (emitted.toList ++ c.kernel.entry.filter fun op => !emitted.contains op) with
  | error reason => exact ⟨⟨.refl c.kernel, rfl⟩, reason, rfl⟩
  | ok k =>
      have hk := Kernel.Kept.setBlockOrder horder
      cases hsort : k.sortBlock 0 with
      | error reason =>
          simp only [Compile.liftCircuit_ok, pure_bind, hsort]
          exact ⟨⟨hk, rfl⟩, reason, rfl⟩
      | ok k' =>
          simp only [Compile.liftCircuit_ok, pure_bind, hsort]
          exact ⟨hk.trans (.sortBlock hsort), rfl⟩

/-- Operations that a compilation did not have to begin with may be erased. -/
theorem prune_keeps {c₀ : Compilation} (l : List Nat) (hl : ∀ x ∈ l, c₀.kernel.op? x = none) :
    ∀ c, c₀.Kept c → Meets (prune l) c (fun _ c' => c₀.Kept c')
      (fun e c' => c₀.Kept c' ∧ ∃ reason, e = .circuit reason) :=
  prune_invariant l fun _ x _ hx h _ herase => ⟨h.kernel.erase herase (hl x hx), h.properties⟩

/-- The work on the kernel, as far as it got before it failed. Unless it failed for a reason of the
circuit, nothing in the entry block has been moved. -/
theorem mapOnto_keeps (options : Options) (l : Labelling) (d : Device) (c : Compilation) :
    Meets (mapOnto options l d) c (fun _ _ => True)
      (fun e c' => c.Kept c' ∧ ((∀ reason, e ≠ .circuit reason) →
        c.kernel.entry.Sublist c'.kernel.entry)) := by
  unfold mapOnto
  rw [meets_get_bind]
  refine Meets.bind ((insertAncillas_grows _ l _ c).mono (fun _ _ => id) fun e c' h =>
    ⟨h.toKept, fun _ => h.entry⟩) ?_
  rintro l' c₁ ⟨h₁, fresh, hsources, hfresh⟩
  cases Placement.identity d.numQubits d.numQubits with
  | error e => exact ⟨h₁.toKept, fun _ => h₁.entry⟩
  | ok placement =>
      simp only [Except.mapError, Compile.lift_ok, pure_bind]
      refine Meets.bind ((route_grows _ _ placement c₁).mono (fun _ _ => id) fun e c' h =>
        ⟨(h₁.trans h).toKept, fun _ => (h₁.trans h).entry⟩) ?_
      intro router c₂ h₂
      have hcircuit : ∀ (e : MappingError) c', (c.Kept c' ∧ ∃ reason, e = .circuit reason) →
          c.Kept c' ∧ ((∀ reason, e ≠ .circuit reason) →
            c.kernel.entry.Sublist c'.kernel.entry) := by
        rintro e c' ⟨hkept, reason, rfl⟩
        exact ⟨hkept, fun h => absurd rfl (h reason)⟩
      refine Meets.bind ((reorder_keeps _ c₂).mono (fun _ _ => id) fun e c' h =>
        hcircuit e c' ⟨(h₁.trans h₂).toKept.trans h.1, h.2⟩) ?_
      intro _ c₃ h₃
      refine Meets.bind ((prune_keeps _ ?_ c₃ ((h₁.trans h₂).toKept.trans h₃)).mono
        (fun _ _ => id) hcircuit) ?_
      · intro x hx
        rw [hsources, ← Array.length_toList, List.drop_left, List.mem_reverse] at hx
        exact hfresh x hx
      · exact fun _ c₄ _ => trivial

/-! ## What a failure leaves -/

/-- When the pass fails, the properties are as they were. The kernel has its name, its level and its
mapping, and every operation in it is still there, with its kind and its results. What fails before
the kernel is touched leaves it as it was; what finds no way between two qubits may add to the entry
block but moves nothing in it. On the kernel of a program there is no other failure. -/
theorem run_failure_keeps {c' : Compilation} {e : MappingError}
    (hrun : run files target c = .error e c') :
    c'.properties = c.properties ∧ c.kernel.Kept c'.kernel ∧
      (∀ e', preflight files target c.kernel = .error e' → c' = c) ∧
      (∀ a b, e = .unroutable a b → c.kernel.entry.Sublist c'.kernel.entry) ∧
      ∀ p : Program, p.lower = .ok c.kernel → c' = c ∨ ∃ a b, e = .unroutable a b := by
  rw [run_eq] at hrun
  cases hpre : preflight files target c.kernel with
  | error e' =>
      rw [hpre] at hrun
      cases hrun
      exact ⟨rfl, .refl c.kernel, fun _ _ => rfl, fun _ _ _ => .refl _, fun _ _ => .inl rfl⟩
  | ok out =>
      obtain ⟨l, d⟩ := out
      rw [hpre] at hrun
      have hkeeps := mapOnto_keeps target.options l d c
      unfold Meets at hkeeps
      simp only [hrun] at hkeeps
      refine ⟨hkeeps.1.properties, hkeeps.1.kernel, fun e' h => (nomatch h), ?_, ?_⟩
      · rintro a b rfl
        exact hkeeps.2 nofun
      · intro p hp
        obtain ⟨hoptions, -, hl, hd, hn⟩ := preflight_eq_ok_iff.mp hpre
        obtain ⟨tags, hlowered⟩ := Program.lower_spec hp
        have hsize : l.sources.size = p.numQubits := by
          simp [(Labelling.ofKernel_spec hlowered hl).1]
        have hmeets := run_spec c.properties hp hoptions hl (hsize ▸ hd) (hsize ▸ hn)
        unfold Meets at hmeets
        rw [run_eq, hpre] at hmeets
        simp only [hrun] at hmeets
        exact .inr hmeets.1

/-- A gate on two qubits. -/
def apart : Program := ⟨"apart", 2, [⟨.gate "cx" [], [0, 1]⟩]⟩

/-- The file of a device of three qubits without edges. -/
def apartFile : FileReader := fun _ => .ok "Number of nodes: 3\n"

/-- The two qubits that no way joins. -/
def unroutable? : MappingError → Option (Nat × Nat)
  | .unroutable a b => some (a, b)
  | _ => none

theorem unroutable?_eq_some {e : MappingError} {a b : Nat} :
    unroutable? e = some (a, b) ↔ e = .unroutable a b := by
  cases e <;> simp [unroutable?]

/-- No way joins the two qubits of the gate. The fresh third qubit stays in the kernel. -/
theorem exists_run_apart : ∃ k c, apart.lower = .ok k ∧
    run apartFile ⟨.file "apart.txt", {}⟩ ⟨k, .empty⟩ = .error (.unroutable 0 1) c ∧
    c.kernel.ops.size = k.ops.size + 1 := by
  have hcomputed : (do
      let k ← apart.lower.toOption
      let out ← failed? (run apartFile ⟨.file "apart.txt", {}⟩ ⟨k, .empty⟩)
      let pair ← unroutable? out.1
      return (pair, k.ops.size, out.2.kernel.ops.size)) = some ((0, 1), 3, 4) := by
    decide +kernel
  simp only [bind, pure, Option.bind_eq_some_iff, Except.toOption_eq_some, failed?_eq_some,
    Option.some.injEq, Prod.mk.injEq] at hcomputed
  obtain ⟨k, hk, ⟨e, c⟩, hrun, ⟨a, b⟩, hpair, ⟨rfl, rfl⟩, hbefore, hafter⟩ := hcomputed
  refine ⟨k, c, hk, ?_, by rw [hafter, hbefore]⟩
  rw [hrun, unroutable?_eq_some.mp hpair]

/-- The kernel is not as it was when a run has failed in the middle of routing. -/
theorem run_failure_changes_kernel : ∃ k c e, apart.lower = .ok k ∧
    run apartFile ⟨.file "apart.txt", {}⟩ ⟨k, .empty⟩ = .error e c ∧ c.kernel ≠ k := by
  obtain ⟨k, c, hk, hrun, hsize⟩ := exists_run_apart
  refine ⟨k, c, _, hk, hrun, fun heq => ?_⟩
  rw [heq] at hsize
  omega

/-- What the failure leaves of the gate on two qubits that no way joins. -/
theorem run_failure_keeps_apart : ∃ k c e, apart.lower = .ok k ∧
    run apartFile ⟨.file "apart.txt", {}⟩ ⟨k, .empty⟩ = .error e c ∧
    c.properties = .empty ∧ c.kernel.level = .logical ∧ k.entry.Sublist c.kernel.entry := by
  obtain ⟨k, c, hk, hrun, -⟩ := exists_run_apart
  obtain ⟨hproperties, hkept, -, hentry, -⟩ := run_failure_keeps hrun
  have hlogical : k.level = .logical := by
    cases hk
    rfl
  have hlevel : c.kernel.level = k.level := congrArg (·.2.1) hkept.heading
  exact ⟨k, c, _, hk, hrun, hproperties, hlevel.trans hlogical, hentry 0 1 rfl⟩

end Mapping

end QubitMapper
