import SlotScheduling.Proofs.Freezing.Coherent
import SlotScheduling.Proofs.Pipeline.Skeletons
import SlotScheduling.Proofs.Placement.Kept
import SlotScheduling.Strategy

/-!
# Reachable graphs

Everything that is done to a graph, from its first unit on, is a call.  A call may
fail, and what it did before it failed remains.  Each call leaves a coherent graph
coherent, and so does any sequence of calls.
-/

namespace SlotScheduling

namespace PipelineSearch

/-- The steps of a search that can be taken one by one. -/
inductive Move
  | computeInterval
  | increaseInterval
  | lengthenCriticalPath
  | placeCriticalPath
  | placeState

def Move.step : Move → Step PipelineSearch PUnit
  | .computeInterval => PipelineSearch.computeInterval
  | .increaseInterval => PipelineSearch.increaseInterval
  | .lengthenCriticalPath => PipelineSearch.lengthenCriticalPath
  | .placeCriticalPath => (fun _ => ⟨⟩) <$> PipelineSearch.placeCriticalPath
  | .placeState => (fun _ => ⟨⟩) <$> PipelineSearch.placeState

end PipelineSearch

/-- Go on from what is left of a step, whether or not it ends well. -/
def Step.attempt {σ α : Type} (work : Step σ α) : Step σ PUnit := fun now =>
  match work now with
  | .ok _ last => .ok ⟨⟩ last
  | .error _ last => .ok ⟨⟩ last

namespace Graph

/-- What can be done to a graph. -/
inductive Call
  | createUnit (lead : Instr) (block : BlockId) (funcUnit : FuncUnit) (control : Bool)
      (latency : Nat)
  | createEntry (block : BlockId)
  | createExit (block : BlockId)
  | fuse (id : UnitId) (op : OpId) (offset : Nat)
  | addDep (target source : UnitId) (edge : DepEdge)
  | removeDep (target source : UnitId)
  | detach (id : UnitId)
  | setTerminator (block : BlockId) (id : UnitId)
  | setPhi (id : UnitId)
  | trySetLoopOp (id : UnitId) (target : Option BlockId)
  | disablePipeline
  | setInterval (block : BlockId) (interval : Nat)
  | place (id : UnitId) (slot : Nat)
  | unplace (id : UnitId)
  | setDangling (id : UnitId) (dangling : Bool)
  | setClass (id : UnitId) (valueClass : ValueClass)
  | resetControl (interval : Nat)
  | resetData
  | undangle (root : UnitId)
  | delayPhis
  | merge (sub : Graph)
  | mergeOnto (sub : Graph) (entry : UnitId)
  | reanchor
  | classify (options : SchedulingOptions) (id : UnitId)
  | run (strategy : Strategy) (options : SchedulingOptions)
  | search (moves : List PipelineSearch.Move)
  | schedule (options : SchedulingOptions)

namespace Call

def step : Call → Step Graph PUnit
  | .createUnit lead block funcUnit control latency =>
      Step.update (·.createUnit lead block funcUnit control latency)
  | .createEntry block => Step.update (·.createEntry block)
  | .createExit block => Step.update (·.createExit block)
  | .fuse id op offset => Step.updateChecked (·.fuse id op offset)
  | .addDep target source edge => Step.updateChecked (·.addDep target source edge)
  | .removeDep target source => Step.updateChecked (·.removeDep target source)
  | .detach id => Step.updateChecked (·.detach id)
  | .setTerminator block id => Step.updateChecked (·.setTerminator block id)
  | .setPhi id => Step.updateChecked (·.setPhi id)
  | .trySetLoopOp id target => Step.updateChecked fun g => Prod.snd <$> g.trySetLoopOp id target
  | .disablePipeline => Step.update Graph.disablePipeline
  | .setInterval block interval => Step.update (·.setInterval block interval)
  | .place id slot => Step.updateChecked (·.changeUnit id (·.place slot))
  | .unplace id => Step.updateChecked (·.changeUnit id (·.unplace))
  | .setDangling id dangling => Step.updateChecked (·.setDangling id dangling)
  | .setClass id valueClass =>
      Step.updateChecked (·.changeUnit id fun unit => { unit with valueClass := some valueClass })
  | .resetControl interval => Graph.resetControl interval
  | .resetData => Step.updateChecked Graph.resetData
  | .undangle root => Step.updateChecked (·.undangle root)
  | .delayPhis => Graph.delayPhis
  | .merge sub => (fun _ => ⟨⟩) <$> Graph.merge sub
  | .mergeOnto sub entry => (fun _ => ⟨⟩) <$> Graph.mergeOnto sub entry
  | .reanchor => Graph.reanchor
  | .classify options id => Step.updateChecked (DataPath.classify options · id)
  | .run strategy options => strategy.run options
  | .search moves => do
      let search ← PipelineSearch.start
      Step.focus (fun graph => { search with graph }) (fun _ search => search.graph)
        (moves.forM fun move => move.step.attempt)
  | .schedule options => Graph.schedule options

/-- The graphs that the call takes in. -/
def merged : Call → List Graph
  | .merge sub => [sub]
  | .mergeOnto sub _ => [sub]
  | _ => []

end Call

/-- The graph is left behind by a sequence of calls, and so is every graph that one of
them took in. -/
inductive Reachable : Graph → Prop
  | start (entryBlock : BlockId) (entrySlot : Nat) : Reachable (start entryBlock entrySlot)
  | call {now : Journaled Graph} (call : Call) (hnow : Reachable now.state)
      (hmerged : ∀ sub ∈ call.merged, Reachable sub) : Reachable (Step.stateOf (call.step now))

end Graph

/-! ## Changes that keep the links -/

theorem Step.Keeps.attempt {σ α κ : Type} {key : σ → κ} {work : Step σ α} (h : work.Keeps key) :
    work.attempt.Keeps key := by
  intro now
  have hkept := h now
  unfold Step.attempt
  cases hrun : work now <;> rwa [hrun] at hkept

namespace PipelineSearch

theorem Move.keeps (move : Move) : move.step.Keeps skeleton := by
  cases move with
  | computeInterval => exact keeps_computeInterval.comp Graph.skeleton
  | increaseInterval => exact keeps_increaseInterval.comp Graph.skeleton
  | lengthenCriticalPath => exact keeps_lengthenCriticalPath.comp Graph.skeleton
  | placeCriticalPath => exact (keeps_placeCriticalPath.comp Prod.fst).map
  | placeState => exact (keeps_placeState.comp Prod.fst).map

end PipelineSearch

namespace Graph

variable {g g' : Graph}

theorem links_eq_of_skeleton_eq (h : g'.skeleton = g.skeleton) : g'.links = g.links :=
  links_eq_of_outline_eq (outline_eq_of_skeleton_eq h)

theorem maintains_of_links {α : Type} {step : Step Graph α} (h : step.Keeps links) :
    step.Maintains Coherent :=
  h.maintains fun _ _ heq hg => hg.of_links_eq heq

theorem maintains_changeUnit (id : UnitId) {change : ScheduleUnit → ScheduleUnit}
    (hchange : ∀ unit, (change unit).links = unit.links) :
    (Step.updateChecked fun g : Graph => g.changeUnit id change).Maintains Coherent :=
  maintains_of_links (Step.keeps_updateChecked fun _ _ h => links_changeUnit h hchange)

/-! ## Passes -/

theorem maintains_reanchor : Graph.reanchor.Maintains Coherent := by
  unfold reanchor
  apply Step.maintains_current_bind
  intro g _
  refine Step.Maintains.bind (Step.maintains_lift _) fun moves => ?_
  apply Step.maintains_forM
  intro move
  refine Step.Maintains.bind (Step.maintains_note _ _) fun _ => ?_
  apply Step.Maintains.bind
  · exact Step.maintains_updateChecked fun g g' h hg => hg.removeDep h
  · exact fun _ => Step.maintains_updateChecked fun g g' h hg => hg.addDep h

/-- A property of a graph that depends on nothing that schedulers decide, and that is kept by the
changes that they make to the rest of the graph. -/
structure Lasting (P : Graph → Prop) : Prop where
  of_skeleton_eq : ∀ {g g' : Graph}, P g → g'.skeleton = g.skeleton → P g'
  reanchor : Graph.reanchor.Maintains P
  disablePipeline : ∀ {g : Graph}, P g → P g.disablePipeline

theorem lasting_coherent : Lasting Coherent where
  of_skeleton_eq := fun hg h => hg.of_links_eq (links_eq_of_skeleton_eq h)
  reanchor := maintains_reanchor
  disablePipeline := fun hg => hg.of_links_eq rfl

namespace Lasting

variable {P : Graph → Prop} (hP : Lasting P)

include hP

theorem of_keeps_skeleton {α : Type} {step : Step Graph α} (h : step.Keeps skeleton) :
    step.Maintains P :=
  h.maintains fun _ _ heq hg => hP.of_skeleton_eq hg heq

theorem of_keeps_frame {α : Type} {step : Step Graph α} (h : step.Keeps frame) :
    step.Maintains P :=
  h.maintains fun _ _ heq hg => hP.of_skeleton_eq hg (skeleton_eq_of_frame_eq heq)

theorem resetControl (interval : Nat) : (Graph.resetControl interval).Maintains P :=
  hP.of_keeps_skeleton ((keeps_resetControl interval).comp Prod.fst)

theorem controlPath : ControlPath.schedule.Maintains P := by
  refine ControlPath.maintains_schedule (fun g g' h hg => ?_) hP.reanchor
  have hframe : g'.frame = g.frame := congrArg Prod.fst h
  exact hP.of_skeleton_eq hg (skeleton_eq_of_frame_eq hframe)

theorem run (strategy : Strategy) (options : SchedulingOptions) :
    (strategy.run options).Maintains P := by
  refine Step.Maintains.bind (Step.maintains_note _ _) fun _ => ?_
  cases strategy with
  | controlPath => exact hP.controlPath
  | dataPath => exact hP.of_keeps_frame (DataPath.keeps_schedule options)
  | pipeline =>
      refine Step.Maintains.bind (hP.of_keeps_skeleton PipelineSearch.keeps_run) fun _ => ?_
      exact Step.maintains_pure _

theorem scheduleStraight (options : SchedulingOptions) :
    (Graph.scheduleStraight options).Maintains P :=
  (hP.resetControl 0).bind fun _ => hP.run .controlPath options

theorem schedulePipelined (options : SchedulingOptions) :
    (Graph.schedulePipelined options).Maintains P := by
  have hfallBack : ∀ text : Unit → String, (do
      Step.note .warn text
      Step.update Graph.disablePipeline
      Graph.scheduleStraight options).Maintains P := by
    intro text
    refine Step.Maintains.bind (Step.maintains_note _ _) fun _ => ?_
    refine Step.Maintains.bind ?_ fun _ => hP.scheduleStraight options
    exact Step.maintains_update fun _ => hP.disablePipeline
  intro now hnow
  have hrun := hP.run .pipeline options now hnow
  unfold Graph.schedulePipelined
  split
  next block interval criticalPath gaveUp hgaveUp =>
    rw [hgaveUp] at hrun
    exact hfallBack _ gaveUp hrun
  next => exact hrun

theorem schedule (options : SchedulingOptions) : (Graph.schedule options).Maintains P := by
  unfold Graph.schedule
  apply Step.maintains_current_bind
  intro g _
  refine Step.Maintains.bind (Step.maintains_lift _) fun _ => ?_
  have hdata : ∀ _ : PUnit, (Strategy.run .dataPath options).Maintains P :=
    fun _ => hP.run .dataPath options
  split
  · exact (hP.schedulePipelined options).bind hdata
  · exact (hP.scheduleStraight options).bind hdata

end Lasting

/-! ## Calls -/

theorem Coherent.createExit (hg : g.Coherent) {block : BlockId} :
    (g.createExit block).Coherent := by
  have hcreated : (g.createUnit (.exit block) block .trivial true 0).Coherent := hg.createUnit
  exact hcreated.of_links_eq rfl

theorem links_setTerminator {block : BlockId} {id : UnitId}
    (h : g.setTerminator block id = .ok g') : g'.links = g.links := by
  obtain ⟨middle, hmiddle, h⟩ := Checked.bind_eq_ok.mp h
  obtain rfl := Checked.pure_eq_ok.mp h
  have hlinks : middle.links = g.links := links_changeUnit hmiddle fun _ => rfl
  exact hlinks

theorem links_trySetLoopOp {id : UnitId} {target : Option BlockId}
    (h : Prod.snd <$> g.trySetLoopOp id target = .ok g') : g'.links = g.links := by
  obtain ⟨⟨loops, last⟩, htried, rfl⟩ := Checked.map_eq_ok.mp h
  obtain ⟨unit, _, htried⟩ := Checked.bind_eq_ok.mp htried
  split at htried <;> cases htried <;> rfl

/-- Whether or not it ends well, a call leaves a coherent graph. -/
theorem Call.maintains (call : Call) (hmerged : ∀ sub ∈ call.merged, sub.Coherent) :
    call.step.Maintains Coherent := by
  cases call with
  | createUnit lead block funcUnit control latency =>
      exact fun _ hnow => hnow.createUnit
  | createEntry block => exact fun _ hnow => hnow.createUnit
  | createExit block => exact fun now hnow => hnow.createExit
  | fuse id op offset => exact maintains_of_links (Step.keeps_updateChecked fun _ _ => links_fuse)
  | addDep target source edge =>
      exact Step.maintains_updateChecked fun _ _ h (hg : Coherent _) => hg.addDep h
  | removeDep target source =>
      exact Step.maintains_updateChecked fun _ _ h (hg : Coherent _) => hg.removeDep h
  | detach id => exact Step.maintains_updateChecked fun _ _ h (hg : Coherent _) => hg.detach h
  | setTerminator block id =>
      exact maintains_of_links (Step.keeps_updateChecked fun _ _ => links_setTerminator)
  | setPhi id => exact maintains_changeUnit id fun _ => rfl
  | trySetLoopOp id target =>
      exact maintains_of_links (Step.keeps_updateChecked fun _ _ => links_trySetLoopOp)
  | disablePipeline => exact fun _ hnow => hnow.of_links_eq rfl
  | setInterval block interval => exact fun _ hnow => hnow.of_links_eq rfl
  | place id slot => exact maintains_changeUnit id fun _ => rfl
  | unplace id => exact maintains_changeUnit id fun _ => rfl
  | setDangling id dangling => exact maintains_changeUnit id fun _ => rfl
  | setClass id valueClass => exact maintains_changeUnit id fun _ => rfl
  | resetControl interval => exact lasting_coherent.resetControl interval
  | resetData =>
      exact lasting_coherent.of_keeps_frame
        (Step.keeps_updateChecked fun _ _ h => frame_changeUnits h fun _ => rfl)
  | undangle root =>
      exact lasting_coherent.of_keeps_frame
        (Step.keeps_updateChecked fun _ _ h => (undangle_sound h).1.frame)
  | delayPhis => exact lasting_coherent.of_keeps_skeleton (keeps_delayPhis.comp Prod.fst)
  | merge sub => exact (maintains_merge (hmerged sub (by simp [merged])).toListed).map
  | mergeOnto sub entry =>
      exact (maintains_mergeOnto (hmerged sub (by simp [merged])).toListed entry).map
  | reanchor => exact maintains_reanchor
  | classify options id =>
      exact lasting_coherent.of_keeps_frame
        (Step.keeps_updateChecked fun _ _ h => DataPath.frame_classify h)
  | run strategy options => exact lasting_coherent.run strategy options
  | search moves =>
      refine Step.Maintains.bind
        (lasting_coherent.of_keeps_skeleton (PipelineSearch.keeps_start.comp Prod.fst))
        fun search => ?_
      have hmoves : (moves.forM fun move => move.step.attempt).Keeps PipelineSearch.skeleton :=
        Step.keeps_forM fun move => move.keeps.attempt
      exact lasting_coherent.of_keeps_skeleton (hmoves.focus fun _ _ hkept => hkept)
  | schedule options => exact lasting_coherent.schedule options

theorem Reachable.coherent (h : g.Reachable) : g.Coherent := by
  induction h with
  | start entryBlock entrySlot => exact coherent_start entryBlock entrySlot
  | call call _ _ ihnow ihmerged => exact call.maintains ihmerged _ ihnow

theorem Reachable.consistent (h : g.Reachable) :
    (∀ user source, g.IsUsedBy source user ↔ g.DependsOn user source) ∧
    (∀ id, ¬g.DependsOn id id) ∧
    (∀ user source, g.DependsOn user source → source < g.units.size) ∧
    (∀ user source, g.IsUsedBy source user → user < g.units.size) ∧
    (∀ (id : UnitId) (unit : ScheduleUnit), g.units[id]? = some unit → unit.id = id) ∧
    g.controlUnits.Pairwise (· < ·) ∧ g.dataUnits.Pairwise (· < ·) ∧
    (g.controlUnits ++ g.dataUnits).Perm (List.range g.units.size) ∧
    (∀ id, id ∈ g.controlUnits ↔ g.IsControl id) ∧ (∀ id, id ∈ g.dataUnits ↔ g.IsData id) := by
  have hg := h.coherent
  refine ⟨fun _ _ => hg.linked.symm, fun _ => hg.loopless, fun _ _ => hg.sources,
    fun _ _ => hg.users, fun _ _ => hg.positions, hg.controlSorted, hg.dataSorted, hg.once,
    fun _ => hg.control, fun _ => hg.data⟩

/-- What is left of a graph after some calls. -/
def after (g : Graph) (calls : List Call) : Graph :=
  calls.foldl (fun g call => Step.stateOf (call.step ⟨g, {}⟩)) g

theorem Reachable.after {calls : List Call} (h : g.Reachable)
    (hmerged : ∀ call ∈ calls, ∀ sub ∈ call.merged, sub.Reachable) : (g.after calls).Reachable := by
  induction calls generalizing g with
  | nil => exact h
  | cons call rest ih =>
      rw [List.forall_mem_cons] at hmerged
      exact ih (@Reachable.call ⟨g, {}⟩ call h hmerged.1) hmerged.2

/-- A block with its schedule. -/
def scheduledBlock : Graph :=
  (start 1 1).after [
    .createUnit (.op 0) 1 ⟨.mult, 0⟩ true 2,
    .createUnit (.op 1) 1 .trivial false 1,
    .createUnit (.op 2) 1 .trivial true 0,
    .addDep 1 0 (.value 0),
    .addDep 2 1 (.value 2),
    .addDep 3 2 (.value 1),
    .setTerminator 1 3,
    .createExit 1,
    .addDep 4 3 (.value 0),
    .schedule {}]

/-- Another block that the scheduled one is merged into, after a unit was to depend on
itself. -/
def enclosing : Graph :=
  (start 0 1).after [
    .createUnit (.op 3) 0 .trivial true 0,
    .addDep 1 1 (.value 0),
    .addDep 1 0 (.value 0),
    .merge scheduledBlock,
    .addDep 5 1 (.value 0),
    .detach 2]

theorem consistent_enclosing :
    enclosing.Reachable ∧ enclosing.DependsOn 5 1 ∧ enclosing.IsUsedBy 1 5 ∧
      ¬enclosing.DependsOn 1 1 ∧
        (enclosing.controlUnits ++ enclosing.dataUnits).Perm (List.range 6) := by
  have hscheduled : scheduledBlock.Reachable :=
    (Reachable.start 1 1).after (by simp [Call.merged])
  have hreachable : enclosing.Reachable :=
    (Reachable.start 0 1).after (by simpa [Call.merged] using hscheduled)
  have hdepends : enclosing.DependsOn 5 1 := by
    have hkeys : (enclosing.units[5]?.any fun unit => unit.deps.keys.contains 1) = true := by
      decide +kernel
    obtain ⟨unit, hunit, hkey⟩ := (Option.any_eq_true _ _).mp hkeys
    exact ⟨unit, hunit, List.contains_iff_mem.mp hkey⟩
  have hsize : enclosing.units.size = 6 := by decide +kernel
  obtain ⟨hmirrored, hloopless, _, _, _, _, _, honce, _⟩ := Reachable.consistent hreachable
  exact ⟨hreachable, hdepends, (hmirrored 5 1).mpr hdepends, hloopless 1, hsize ▸ honce⟩

end Graph

end SlotScheduling
