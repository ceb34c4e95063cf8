import RaftLabs.MapReduce.Coordinator

/-! The phases of a MapReduce job.

A run is any sequence of requests, answered one at a time; the finishes that the coordinator
accepted along the way are recorded. The phase is derived from which of the two task maps is
empty, so the invariant ties both maps to the record: `mTasks` holds the files without an
accepted finish, and as long as there are any, `rTasks` is empty and no reduce task was ever
finished; after that `rTasks` holds the ids without an accepted finish. -/
namespace RaftLabs.MapReduce
open Lib

/-- The coordinator of a job, answering requests. -/
def coordinatorSystem (clock : Nat → Int) (files : List GoString) (nReduce : Int) :
    System Coordinator (Moment × Args) where
  init := .makeCoordinator clock files nReduce
  step c request := some (c.dispatchTask request.1 request.2).1

/-- The same, with the finishes that were accepted. -/
abbrev recordedSystem (clock : Nat → Int) (files : List GoString) (nReduce : Int) :
    System (Coordinator × List Coordinator.Finish) (Moment × Args) :=
  (coordinatorSystem clock files nReduce).record fun c request => (c.accepts request.2).toList

namespace Coordinator

/-- Both task maps agree with the accepted finishes. -/
structure Phased (files : List GoString) (nReduce : Int) (c : Coordinator)
    (accepted : List Finish) : Prop where
  nReduce_eq : c.nReduce = nReduce
  mapping : ∀ fileName, fileName ∈ c.mTasks.keys ↔ fileName ∈ files ∧ .map fileName ∉ accepted
  waiting : c.mTasks.keys ≠ ∅ ∨ files = [] → c.rTasks.keys = ∅ ∧ ∀ taskId, .reduce taskId ∉ accepted
  reducing : c.mTasks.keys = ∅ → files ≠ [] → ∀ taskId,
    taskId ∈ c.rTasks.keys ↔ (0 ≤ taskId ∧ taskId < nReduce) ∧ .reduce taskId ∉ accepted

variable {files : List GoString} {nReduce : Int} {c c' : Coordinator} {accepted : List Finish}

theorem phased_makeCoordinator (clock : Nat → Int) :
    Phased files nReduce (makeCoordinator clock files nReduce) [] where
  nReduce_eq := rfl
  mapping fileName := by simp [mem_keys_makeCoordinator]
  waiting _ := ⟨GoMap.keys_empty, by simp⟩
  reducing hnone hfiles := by
    obtain ⟨f, rest, rfl⟩ := List.exists_cons_of_ne_nil hfiles
    have hmem : f ∈ (makeCoordinator clock (f :: rest) nReduce).mTasks.keys :=
      mem_keys_makeCoordinator.mpr List.mem_cons_self
    simp [hnone] at hmem

theorem Phased.of_keys (h : Phased files nReduce c accepted) (hnReduce : c'.nReduce = c.nReduce)
    (hm : c'.mTasks.keys = c.mTasks.keys) (hr : c'.rTasks.keys = c.rTasks.keys) :
    Phased files nReduce c' accepted where
  nReduce_eq := hnReduce.trans h.nReduce_eq
  mapping := hm ▸ h.mapping
  waiting := hm ▸ hr ▸ h.waiting
  reducing := hm ▸ hr ▸ h.reducing

/-- A finished map task leaves `mTasks` as its finish enters the record. -/
theorem Phased.mapping_delete (h : Phased files nReduce c accepted) (fileName f : GoString) :
    f ∈ (c.mTasks.delete fileName).keys ↔ f ∈ files ∧ .map f ∉ accepted ++ [.map fileName] := by
  rw [GoMap.mem_keys_delete, h.mapping]
  simp only [List.mem_append, List.mem_singleton, Finish.map.injEq, not_or]
  tauto

theorem Phased.files_ne_of_mem_rTasks (h : Phased files nReduce c accepted) {taskId : Int}
    (hmem : taskId ∈ c.rTasks.keys) : files ≠ [] := by
  intro hnil
  simp [(h.waiting (.inr hnil)).1] at hmem

/-- Every request keeps the maps in agreement with what was accepted. -/
theorem Phased.handles {args : Args} {reply : Reply} (h : Phased files nReduce c accepted)
    (hstep : Handles c args c' reply) :
    Phased files nReduce c' (accepted ++ (c.accepts args).toList) := by
  cases hstep with
  | nothing haccepts =>
    rw [haccepts]
    simpa using h
  | mapTask hreq hmem =>
    have haccepts : c.accepts args = none := by simp [accepts, hreq]
    rw [haccepts, Option.toList_none, List.append_nil]
    exact h.of_keys rfl (GoMap.keys_set_of_mem hmem) rfl
  | reduceTask hreq hphase hmem =>
    have haccepts : c.accepts args = none := by simp [accepts, hreq]
    rw [haccepts, Option.toList_none, List.append_nil]
    exact h.of_keys rfl rfl (GoMap.keys_set_of_mem hmem)
  | mapFinish haccepts hmem hmore =>
    rw [haccepts]
    have hwaiting := h.waiting (.inl (Finset.ne_empty_of_mem hmem))
    exact {
      nReduce_eq := h.nReduce_eq
      mapping := h.mapping_delete _
      waiting := fun _ => ⟨hwaiting.1, by simpa using hwaiting.2⟩
      reducing := fun hnone => absurd hnone hmore }
  | lastMapFinish haccepts hmem hlast =>
    rw [haccepts]
    obtain ⟨hnoTask, hnoFinish⟩ := h.waiting (.inl (Finset.ne_empty_of_mem hmem))
    have hfiles : files ≠ [] := List.ne_nil_of_mem ((h.mapping _).mp hmem).1
    exact {
      nReduce_eq := h.nReduce_eq
      mapping := h.mapping_delete _
      -- the maps are done, and all ids become unfinished at once
      waiting := fun hor => absurd (hor.resolve_right hfiles) (not_not.mpr hlast)
      reducing := fun _ _ taskId => by
        rw [mem_keys_fillReduceTasks, h.nReduce_eq, hnoTask]
        simpa using fun _ _ => hnoFinish taskId }
  | reduceFinish haccepts hphase hmem =>
    rw [haccepts]
    have hfiles : files ≠ [] := h.files_ne_of_mem_rTasks hmem
    exact {
      nReduce_eq := h.nReduce_eq
      mapping := fun fileName => by simpa using h.mapping fileName
      waiting := fun hor => absurd (hor.resolve_right hfiles) (not_not.mpr hphase)
      reducing := fun _ _ taskId => by
        rw [GoMap.mem_keys_delete, h.reducing hphase hfiles]
        simp only [Option.toList_some, List.mem_append, List.mem_singleton, Finish.reduce.injEq,
          not_or]
        tauto }

theorem phased_of_reach {clock : Nat → Int} {w : Coordinator × List Finish}
    (h : System.Reach (recordedSystem clock files nReduce) System.anyStep w) :
    Phased files nReduce w.1 w.2 := by
  refine h.invariant (P := fun w => Phased files nReduce w.1 w.2) (phased_makeCoordinator clock) ?_
  intro w request w' _ hphased _ hstep
  obtain ⟨hdispatch, haccepted⟩ := System.record_step.mp hstep
  rw [haccepted, ← Option.some.inj hdispatch]
  exact hphased.handles (dispatchTask_handles request.1 w.1 request.2)

/-! ### Handing out and ending -/

/-- A map task is handed out while it is unfinished, a reduce task also only when nothing is left
to map. -/
theorem Handles.of_newTask {args : Args} {reply : Reply} (h : Handles c args c' reply)
    (hcode : reply.replyCode = .newTask) :
    (args.reqType = .mapRequest ∧ reply.mapFileName ∈ c.mTasks.keys ∧
      reply.mapTaskId = c.files.getD reply.mapFileName 0) ∨
    (args.reqType = .reduceRequest ∧ c.mTasks.keys = ∅ ∧ reply.reduceTaskId ∈ c.rTasks.keys) := by
  cases h with
  | mapTask hreq hmem hname hid => exact .inl ⟨hreq, hname ▸ hmem, hname ▸ hid⟩
  | reduceTask hreq hphase hmem hid => exact .inr ⟨hreq, hphase, hid ▸ hmem⟩
  | nothing _ hno => simp [hno] at hcode
  | mapFinish _ _ _ hno => simp [hno] at hcode
  | lastMapFinish _ _ _ hno => simp [hno] at hcode
  | reduceFinish _ _ _ hno => simp [hno] at hcode

theorem Handles.mem_mTasks {args : Args} {reply : Reply} (h : Handles c args c' reply)
    (hreq : args.reqType = .mapRequest) (hcode : reply.replyCode = .newTask) :
    reply.mapFileName ∈ c.mTasks.keys ∧
      reply.mapTaskId = c.files.getD reply.mapFileName 0 := by
  simpa [hreq] using h.of_newTask hcode

theorem Handles.mem_rTasks {args : Args} {reply : Reply} (h : Handles c args c' reply)
    (hreq : args.reqType = .reduceRequest) (hcode : reply.replyCode = .newTask) :
    c.mTasks.keys = ∅ ∧ reply.reduceTaskId ∈ c.rTasks.keys := by
  simpa [hreq] using h.of_newTask hcode

/-- While a reduce task is unfinished, every map task is finished. -/
theorem Phased.of_mem_rTasks (h : Phased files nReduce c accepted) {taskId : Int}
    (hnone : c.mTasks.keys = ∅) (hmem : taskId ∈ c.rTasks.keys) :
    (∀ fileName ∈ files, .map fileName ∈ accepted) ∧ 0 ≤ taskId ∧ taskId < nReduce ∧
      .reduce taskId ∉ accepted := by
  obtain ⟨hbounds, hfresh⟩ := (h.reducing hnone (h.files_ne_of_mem_rTasks hmem) taskId).mp hmem
  refine ⟨?_, hbounds.1, hbounds.2, hfresh⟩
  intro fileName hfile
  by_contra hnot
  simpa [hnone] using (h.mapping fileName).mpr ⟨hfile, hnot⟩

theorem dispatchTask_of_done (m : Moment) (args : Args) (hdone : c.done = true) :
    (c.dispatchTask m args).1 = c := by
  rw [dispatchTask, if_pos (getCoordinatorStatus_eq_shutDowned.mpr (done_iff.mp hdone))]

theorem Phased.done_iff_accepted (h : Phased files nReduce c accepted) (hfiles : files ≠ []) :
    c.done = true ↔ (∀ fileName ∈ files, .map fileName ∈ accepted) ∧
      ∀ taskId, 0 ≤ taskId → taskId < nReduce → .reduce taskId ∈ accepted := by
  have hmaps : c.mTasks.keys = ∅ ↔ ∀ fileName ∈ files, .map fileName ∈ accepted := by
    simp only [Finset.eq_empty_iff_forall_notMem, h.mapping, not_and, not_not]
  rw [done_iff, ← hmaps]
  refine and_congr_right fun hnone => ?_
  simp only [Finset.eq_empty_iff_forall_notMem, h.reducing hnone hfiles, not_and, not_not, and_imp]

end Coordinator

/-- Reduce tasks are handed out only after every file was mapped, and only while they are
unfinished; the job of at least one file is done exactly when every task is finished, and stays
done. -/
theorem reduce_after_map (clock : Nat → Int) (files : List GoString) (nReduce : Int)
    {w : Coordinator × List Coordinator.Finish}
    (h : System.Reach (recordedSystem clock files nReduce) System.anyStep w) :
    (∀ m args, args.reqType = .reduceRequest →
      (w.1.dispatchTask m args).2.replyCode = .newTask →
        (∀ fileName ∈ files, .map fileName ∈ w.2) ∧
        0 ≤ (w.1.dispatchTask m args).2.reduceTaskId ∧
        (w.1.dispatchTask m args).2.reduceTaskId < nReduce ∧
        .reduce (w.1.dispatchTask m args).2.reduceTaskId ∉ w.2) ∧
    (files ≠ [] → (w.1.done = true ↔
      (∀ fileName ∈ files, .map fileName ∈ w.2) ∧
        ∀ taskId, 0 ≤ taskId → taskId < nReduce → .reduce taskId ∈ w.2)) ∧
    (w.1.done = true → ∀ w',
      System.Reach ((recordedSystem clock files nReduce).startingAt w) System.anyStep w' →
        w'.1.done = true) := by
  have hphased := Coordinator.phased_of_reach h
  refine ⟨?_, hphased.done_iff_accepted, ?_⟩
  · intro m args hreq hcode
    obtain ⟨hnone, hmem⟩ := (Coordinator.dispatchTask_handles m w.1 args).mem_rTasks hreq hcode
    exact hphased.of_mem_rTasks hnone hmem
  · intro hdone w' hreach
    refine hreach.invariant (P := fun w' => w'.1.done = true) hdone ?_
    intro s request s' _ hs _ hstep
    have hstep : (recordedSystem clock files nReduce).step s request = some s' := hstep
    rw [← Option.some.inj (System.record_step.mp hstep).1,
      Coordinator.dispatchTask_of_done request.1 request.2 hs]
    exact hs

/-- Requests handled in order, an hour after the epoch. -/
def atOneHour : Moment := ⟨.sorted, .sorted, fun _ => hour⟩

/-- A worker asks for the only file, reports it, reports it again, and a file that is unknown. -/
def oneFile : List (Moment × Args) :=
  [{ reqType := .mapRequest },
    { reqType := .mapFinishRequest, mapFinishedFileName := .lit "a" },
    { reqType := .mapFinishRequest, mapFinishedFileName := .lit "a" },
    { reqType := .mapFinishRequest, mapFinishedFileName := .lit "b" }].map (atOneHour, ·)

theorem oneFile_runs :
    ((recordedSystem (fun _ => 0) [.lit "a"] 2).run (recordedSystem (fun _ => 0) [.lit "a"] 2).init
      oneFile).map (fun w => decide (w.2 = [.map (.lit "a")] ∧
        (w.1.dispatchTask atOneHour { reqType := .reduceRequest }).2.replyCode = .newTask)) =
      some true := by
  decide +kernel

theorem reduce_after_map_oneFile :
    ∃ w : Coordinator × List Coordinator.Finish,
      (w.2 = [.map (.lit "a")] ∧
        (w.1.dispatchTask atOneHour { reqType := .reduceRequest }).2.replyCode = .newTask) ∧
      (∀ fileName ∈ [GoString.lit "a"], .map fileName ∈ w.2) ∧
      0 ≤ (w.1.dispatchTask atOneHour { reqType := .reduceRequest }).2.reduceTaskId ∧
      (w.1.dispatchTask atOneHour { reqType := .reduceRequest }).2.reduceTaskId < 2 ∧
      .reduce (w.1.dispatchTask atOneHour { reqType := .reduceRequest }).2.reduceTaskId ∉ w.2 := by
  obtain ⟨w, hrun, hfacts⟩ := Option.map_eq_some_iff.mp oneFile_runs
  have hfacts := of_decide_eq_true hfacts
  have hreach := System.reach_run .init (fun _ _ => trivial) oneFile hrun
  exact ⟨w, hfacts, (reduce_after_map _ _ _ hreach).1 atOneHour _ rfl hfacts.2⟩

end RaftLabs.MapReduce
