import Mathlib.Data.Finset.Order
import RaftLabs.MapReduce.Equivalence

/-! Two live workers finish the job.

Tasks are lost all the time: a worker crashes, or its finish message is never handled. The
coordinator hands such a task out again ten seconds later. So from whatever state the job has come
to, one map worker and one reduce worker that go on are enough: each round of the first finishes a
map task, each round of the second a reduce task, and what the others have left behind does not
stand in the way. -/
namespace RaftLabs.MapReduce
open Lib

/-- A step of the map worker `i`, of the reduce worker `j` or of the coordinator, which handles
every request at the moment `m`. -/
def Action.Of (i j : Nat) (m : Moment) : Action → Prop
  | .mapRequest k m' => k = i ∧ m' = m
  | .mapRead k _ | .mapRename k | .mapFinish k => k = i
  | .reduceRequest k m' => k = j ∧ m' = m
  | .reduceRead k | .reduceRename k _ | .reduceFinish k => k = j
  | .deliver _ m' => m' = m
  | .mapCrash _ | .reduceCrash _ => False

def MapWorker.live : MapWorker → Bool
  | .stopped => false
  | _ => true

def ReduceWorker.live : ReduceWorker → Bool
  | .stopped => false
  | _ => true

namespace Coordinator
variable {c : Coordinator} {m : Moment} {T : Int}

/-- At the time `T`, every unfinished task may be handed out. -/
structure Expired (c : Coordinator) (T : Int) : Prop where
  maps : ∀ fileName ∈ c.mTasks.keys, T - c.mTasks.getD fileName 0 > 10 * second
  reduces : ∀ taskId ∈ c.rTasks.keys, T - c.rTasks.getD taskId 0 > 10 * second

theorem exists_expired (c : Coordinator) : ∃ T₀, ∀ T, T₀ ≤ T → c.Expired T := by
  obtain ⟨M, hM⟩ := (c.mTasks.keys.image (c.mTasks.getD · 0)).exists_le
  obtain ⟨R, hR⟩ := (c.rTasks.keys.image (c.rTasks.getD · 0)).exists_le
  refine ⟨max M R + 10 * second + 1, fun T hT => ⟨fun fileName hmem => ?_, fun taskId hmem => ?_⟩⟩
  · have := hM _ (Finset.mem_image_of_mem _ hmem)
    omega
  · have := hR _ (Finset.mem_image_of_mem _ hmem)
    omega

theorem exists_firstExpired {K : Type} (clock : Nat → Int) (lastTime : K → Int)
    (order : RangeOrder K) {tasks : Finset K} (hne : tasks ≠ ∅)
    (hexpired : ∀ task ∈ tasks, clock 0 - lastTime task > 10 * second) :
    ∃ task ∈ tasks, firstExpired clock lastTime 0 (order.list tasks) = some task := by
  cases hlist : order.list tasks with
  | nil =>
    refine absurd (Finset.eq_empty_of_forall_notMem fun task hmem => ?_) hne
    simpa [hlist] using order.mem_list.mpr hmem
  | cons task rest =>
    have hmem : task ∈ tasks := order.mem_list.mp (hlist ▸ List.mem_cons_self)
    exact ⟨task, hmem, if_pos (hexpired task hmem)⟩

theorem getCoordinatorStatus_eq_mapStatus :
    c.getCoordinatorStatus = .mapStatus ↔ c.mTasks.keys ≠ ∅ := by
  simp only [getCoordinatorStatus, GoMap.len, Finset.card_eq_zero]
  split_ifs <;> simp_all

/-! ### Requests at a late time -/

section Late
variable (hm : ∀ n, m.clock n = T) (hexpired : c.Expired T)
include hm hexpired

theorem dispatchTask_mapRequest (hne : c.mTasks.keys ≠ ∅) :
    ∃ fileName ∈ c.mTasks.keys, ∃ taskId,
      (c.dispatchTask m { reqType := .mapRequest }).1 =
        { c with mTasks := c.mTasks.set fileName T } ∧
      MapWorker.receive (c.dispatchTask m { reqType := .mapRequest }).2 =
        .assigned fileName taskId c.nReduce := by
  have hstatus := getCoordinatorStatus_eq_mapStatus.mpr hne
  obtain ⟨fileName, hmem, hfirst⟩ := exists_firstExpired m.clock _ m.fileOrder hne
    fun task htask => by simpa [hm] using hexpired.maps task htask
  refine ⟨fileName, hmem, c.files.getD fileName 0, ?_, ?_⟩
  · simp [dispatchTask, hstatus, hfirst, hm]
  · simp [dispatchTask, hstatus, hfirst, MapWorker.receive]

theorem dispatchTask_reduceRequest (hmaps : c.mTasks.keys = ∅) (hne : c.rTasks.keys ≠ ∅) :
    ∃ taskId ∈ c.rTasks.keys,
      (c.dispatchTask m { reqType := .reduceRequest }).1 =
        { c with rTasks := c.rTasks.set taskId T } ∧
      ReduceWorker.receive (c.dispatchTask m { reqType := .reduceRequest }).2 =
        .reading taskId c.nfile 0 GoMap.empty := by
  have hstatus := getCoordinatorStatus_eq_reduceStatus.mpr ⟨hmaps, hne⟩
  obtain ⟨taskId, hmem, hfirst⟩ := exists_firstExpired m.clock _ m.taskOrder hne
    fun task htask => by simpa [hm] using hexpired.reduces task htask
  refine ⟨taskId, hmem, ?_, ?_⟩
  · simp [dispatchTask, hstatus, hfirst, hm]
  · simp [dispatchTask, hstatus, hfirst, ReduceWorker.receive]

end Late

theorem getD_fillReduceTasks {clock : Nat → Int} {nReduce taskId : Int} {rTasks : GoMap Int Int}
    (h : 0 ≤ taskId ∧ taskId < nReduce) :
    (fillReduceTasks clock nReduce rTasks).getD taskId 0 = clock taskId.toNat - hour := by
  have hfold : ∀ n : Nat, taskId < n → ((List.range n).foldl
      (fun tasks (i : Nat) => tasks.set i (clock i - hour)) rTasks).getD taskId 0 =
        clock taskId.toNat - hour := by
    intro n hn
    induction n with
    | zero => omega
    | succ n ih =>
      rw [List.range_succ, List.foldl_append, List.foldl_cons, List.foldl_nil, GoMap.getD_set]
      split
      · congr 2
        omega
      · exact ih (by omega)
  exact hfold _ (by omega)

theorem dispatchTask_mapFinish (m : Moment) {fileName : GoString} (hmem : fileName ∈ c.mTasks.keys) :
    (c.dispatchTask m { reqType := .mapFinishRequest, mapFinishedFileName := fileName }).1 =
      { c with
        mTasks := c.mTasks.delete fileName
        rTasks := if (c.mTasks.delete fileName).len = 0 then
          fillReduceTasks m.clock c.nReduce c.rTasks else c.rTasks } := by
  have hstatus : c.getCoordinatorStatus = .mapStatus :=
    getCoordinatorStatus_eq_mapStatus.mpr (Finset.ne_empty_of_mem hmem)
  have hsome := GoMap.mem_keys.mp hmem
  by_cases hlast : (c.mTasks.delete fileName).len = 0 <;>
    simp [dispatchTask, hstatus, hsome, hlast]

theorem dispatchTask_reduceFinish (m : Moment) {taskId : Int} (hmaps : c.mTasks.keys = ∅)
    (hmem : taskId ∈ c.rTasks.keys) :
    (c.dispatchTask m { reqType := .reduceFinishRequest, reduceFinishedTaskId := taskId }).1 =
      { c with rTasks := c.rTasks.delete taskId } := by
  have hstatus : c.getCoordinatorStatus = .reduceStatus :=
    getCoordinatorStatus_eq_reduceStatus.mpr ⟨hmaps, Finset.ne_empty_of_mem hmem⟩
  have hsome := GoMap.mem_keys.mp hmem
  simp [dispatchTask, hstatus, hsome]

/-! ### One task, handed out and finished -/

theorem expired_delete {K : Type} [DecidableEq K] {tasks : GoMap K Int} {task : K}
    (h : ∀ k ∈ tasks.keys, T - tasks.getD k 0 > 10 * second) :
    ∀ k ∈ (tasks.delete task).keys, T - (tasks.delete task).getD k 0 > 10 * second := by
  intro k hk
  obtain ⟨hne, hmem⟩ := GoMap.mem_keys_delete.mp hk
  rw [GoMap.getD_delete_of_ne hne]
  exact h k hmem

/-- The last finish of a map task makes the reduce tasks available at once. -/
theorem Expired.mapFinish (h : c.Expired T) (hm : ∀ n, m.clock n = T)
    (hwaiting : c.rTasks.keys = ∅) {fileName : GoString} :
    Expired
      { c with
        mTasks := c.mTasks.delete fileName
        rTasks := if (c.mTasks.delete fileName).len = 0 then
          fillReduceTasks m.clock c.nReduce c.rTasks else c.rTasks } T where
  maps := expired_delete h.maps
  reduces taskId htask := by
    simp only at htask ⊢
    split at htask
    · rcases mem_keys_fillReduceTasks.mp htask with hbounds | hold
      · rw [if_pos ‹_›, getD_fillReduceTasks hbounds, hm]
        have : 10 * second < hour := by decide
        omega
      · simp [hwaiting] at hold
    · simp [hwaiting] at htask

theorem Expired.reduceFinish (h : c.Expired T) {taskId : Int} :
    Expired { c with rTasks := c.rTasks.delete taskId } T where
  maps := h.maps
  reduces := expired_delete h.reduces

end Coordinator

/-! ### The rounds of a worker -/

namespace Job
variable {Path : Type} [DecidableEq Path] {job : Job Path} {w w' : World Path} {clock : Nat → Int}
  {i j : Nat} {m : Moment}

/-- The two workers can go on from `w` to `w'`. -/
abbrev Brings (job : Job Path) (clock : Nat → Int) (i j : Nat) (m : Moment) (w w' : World Path) :
    Prop :=
  System.Reach ((job.system clock).startingAt w) (fun _ a => a.Of i j m) w'

theorem Brings.step (h : job.Brings clock i j m w w') {a : Action} {w'' : World Path}
    (hstep : job.step w' a = some w'') (ha : a.Of i j m) : job.Brings clock i j m w w'' :=
  System.Reach.step h ha hstep

theorem Brings.trans (h : job.Brings clock i j m w w') {w'' : World Path}
    (h' : job.Brings clock i j m w' w'') : job.Brings clock i j m w w'' :=
  System.reach_startingAt h h'

theorem Brings.sound (hstd : job.Standard) (hspares : job.SparesInputs)
    (h : job.Brings clock i j m w w') (hw : job.Sound w) : job.Sound w' :=
  h.invariant hw fun _ _ _ _ hsound _ hstep => hsound.step hstd hspares hstep

/-! A map worker -/

theorem brings_written (clock : Nat → Int) (j : Nat) (m : Moment) {fileName : GoString}
    {taskId : Int} {index : Nat} {lists : List (List KeyValue)}
    (hi : w.mappers i = .writing fileName taskId index lists) :
    ∃ w', job.Brings clock i j m w w' ∧
      w'.mappers i = .writing fileName taskId (index + lists.length) [] ∧
      w'.coordinator = w.coordinator ∧ w'.reducers = w.reducers ∧ w'.sent = w.sent := by
  induction lists generalizing w index with
  | nil => exact ⟨w, .init, hi, rfl, rfl, rfl⟩
  | cons kvlist rest ih =>
    let w₁ := (w.rename (job.resolve (.lit "./" ++ mapOutput taskId index))
      (kvlist.flatMap job.encode)).setMapper i (.writing fileName taskId (index + 1) rest)
    have hstep : job.step w (.mapRename i) = some w₁ := by simp [Job.step, hi, w₁]
    have hi₁ : w₁.mappers i = .writing fileName taskId (index + 1) rest := Function.update_self ..
    obtain ⟨w', hbrings, hi', hframe⟩ := ih hi₁
    refine ⟨w', (Brings.step .init hstep rfl).trans hbrings, ?_, hframe⟩
    rw [hi', List.length_cons, Nat.add_assoc, Nat.add_comm 1]

/-- A map worker that has its pairs writes them, and reports the finish. -/
theorem brings_mapFinish_of_writing (clock : Nat → Int) (j : Nat) (m : Moment)
    {fileName : GoString} {taskId : Int} {index : Nat} {lists : List (List KeyValue)}
    (hi : w.mappers i = .writing fileName taskId index lists) :
    ∃ w', job.Brings clock i j m w w' ∧ w'.mappers i = .requesting ∧
      w'.coordinator = w.coordinator ∧ w'.reducers = w.reducers ∧
      w'.sent = w.sent ++ [{ reqType := .mapFinishRequest, mapFinishedFileName := fileName }] := by
  obtain ⟨w₁, hbrings, hi₁, hcoord, hreducers, hsent⟩ := brings_written clock j m hi
  let w₂ := (w₁.send { reqType := .mapFinishRequest, mapFinishedFileName := fileName }).setMapper i
    .requesting
  have hstep : job.step w₁ (.mapFinish i) = some w₂ := by simp [Job.step, hi₁, w₂]
  exact ⟨w₂, hbrings.step hstep rfl, Function.update_self .., hcoord, hreducers,
    congrArg (· ++ [_]) hsent⟩

section Tasks
variable (hstd : job.Standard) (hspares : job.SparesInputs)
  (hopened : ∀ fileName ∈ job.files, (job.disk (job.resolve fileName)).isSome)

include hstd hopened in
/-- A map worker with a task does it. -/
theorem brings_mapFinish (clock : Nat → Int) (j : Nat) (m : Moment) (hw : job.Sound w)
    {fileName : GoString} {taskId nReduce : Int}
    (hi : w.mappers i = .assigned fileName taskId nReduce) :
    ∃ w', job.Brings clock i j m w w' ∧ w'.mappers i = .requesting ∧
      w'.coordinator = w.coordinator ∧ w'.reducers = w.reducers ∧
      w'.sent = w.sent ++ [{ reqType := .mapFinishRequest, mapFinishedFileName := fileName }] := by
  have hs := hw.mappers i
  rw [hi] at hs
  obtain ⟨rfl, X, hX, -⟩ := hs
  have hmem := List.mem_of_getElem? hX
  obtain ⟨content, hcontent⟩ := Option.isSome_iff_exists.mp (hopened fileName hmem)
  obtain ⟨lists, hlists, -⟩ := kvlists_eq hstd.nReduce_pos
    ((Grouping.Sorting.insertion KeyValue.key).sort (job.mapf fileName content))
  let w₁ := w.setMapper i (.writing fileName taskId 0 lists)
  have hstep : job.step w (.mapRead i (.insertion _)) = some w₁ := by
    simp [Job.step, hi, mapTask, hw.input fileName hmem, hcontent, hlists, w₁]
  have hi₁ : w₁.mappers i = .writing fileName taskId 0 lists := Function.update_self ..
  obtain ⟨w', hbrings, hrest⟩ := brings_mapFinish_of_writing clock j m hi₁
  exact ⟨w', (Brings.step .init hstep rfl).trans hbrings, hrest⟩

include hstd hopened in
/-- A map worker that has not stopped comes to ask for a task. -/
theorem brings_mapper_requesting (clock : Nat → Int) (j : Nat) (m : Moment) (hw : job.Sound w)
    (hi : (w.mappers i).live = true) :
    ∃ w', job.Brings clock i j m w w' ∧ w'.mappers i = .requesting ∧
      w'.coordinator = w.coordinator ∧ w'.reducers = w.reducers := by
  cases hworker : w.mappers i with
  | requesting => exact ⟨w, .init, hworker, rfl, rfl⟩
  | assigned fileName taskId nReduce =>
    obtain ⟨w', hbrings, hi', hcoord, hreducers, -⟩ :=
      brings_mapFinish hstd hopened clock j m hw hworker
    exact ⟨w', hbrings, hi', hcoord, hreducers⟩
  | writing fileName taskId index lists =>
    obtain ⟨w', hbrings, hi', hcoord, hreducers, -⟩ :=
      brings_mapFinish_of_writing clock j m hworker
    exact ⟨w', hbrings, hi', hcoord, hreducers⟩
  | stopped => simp [hworker, MapWorker.live] at hi

/-! A reduce worker -/

theorem brings_reduceFinish_of_finishing (clock : Nat → Int) (i : Nat) (m : Moment) {taskId : Int}
    (hj : w.reducers j = .finishing taskId) :
    ∃ w', job.Brings clock i j m w w' ∧ w'.reducers j = .requesting ∧
      w'.coordinator = w.coordinator ∧ w'.mappers = w.mappers ∧
      w'.sent = w.sent ++ [{ reqType := .reduceFinishRequest, reduceFinishedTaskId := taskId }] := by
  let w' := (w.send { reqType := .reduceFinishRequest, reduceFinishedTaskId := taskId }).setReducer j
    .requesting
  have hstep : job.step w (.reduceFinish j) = some w' := by simp [Job.step, hj, w']
  exact ⟨w', Brings.step .init hstep rfl, Function.update_self .., rfl, rfl, rfl⟩

include hstd hspares in
/-- A reduce worker with a task reads the files that are left, and does it. -/
theorem brings_reduceFinish (clock : Nat → Int) (i : Nat) (m : Moment) (hw : job.Sound w)
    {taskId nFile : Int} {X : Nat} {result : GoMap GoString (List GoString)}
    (hj : w.reducers j = .reading taskId nFile X result) :
    ∃ w', job.Brings clock i j m w w' ∧ w'.reducers j = .requesting ∧
      w'.coordinator = w.coordinator ∧ w'.mappers = w.mappers ∧
      w'.sent = w.sent ++ [{ reqType := .reduceFinishRequest, reduceFinishedTaskId := taskId }] := by
  induction hleft : (nFile - X).toNat generalizing w X result with
  | zero =>
    let w₁ := (w.rename (job.resolve (.lit "./" ++ reduceOutput taskId))
      (job.reduceText (.sorted) result)).setReducer j (.finishing taskId)
    have hstep : job.step w (.reduceRename j .sorted) = some w₁ := by
      have : ¬ (X : Int) < nFile := by omega
      simp [Job.step, hj, this, w₁]
    have hj₁ : w₁.reducers j = .finishing taskId := Function.update_self ..
    obtain ⟨w', hbrings, hrest⟩ := brings_reduceFinish_of_finishing clock i m hj₁
    exact ⟨w', (Brings.step .init hstep rfl).trans hbrings, hrest⟩
  | succ left ih =>
    have hs := hw.reducers j
    rw [hj] at hs
    obtain ⟨-, rfl, -, Y, -, rfl, hwritten, -⟩ := hs
    have hX : X < job.files.length := by omega
    obtain ⟨kvs, hdecode, -⟩ := hstd.decode_written (List.getElem?_eq_getElem hX)
      (hwritten _ (List.getElem_mem hX))
    obtain ⟨content, hcontent, -⟩ := Option.map_eq_some_iff.mp hdecode
    let w₁ := w.setReducer j
      (.reading Y job.files.length (X + 1) (collect result (job.decode content)))
    have hstep : job.step w (.reduceRead j) = some w₁ := by
      simp [Job.step, hj, hX, readTask, hcontent, w₁]
    have hj₁ : w₁.reducers j =
        .reading Y job.files.length (X + 1) (collect result (job.decode content)) :=
      Function.update_self ..
    obtain ⟨w', hbrings, hrest⟩ := ih (hw.step hstd hspares hstep) hj₁ (by omega)
    exact ⟨w', (Brings.step .init hstep rfl).trans hbrings, hrest⟩

include hstd hspares in
/-- A reduce worker that has not stopped comes to ask for a task. -/
theorem brings_reducer_requesting (clock : Nat → Int) (i : Nat) (m : Moment) (hw : job.Sound w)
    (hj : (w.reducers j).live = true) :
    ∃ w', job.Brings clock i j m w w' ∧ w'.reducers j = .requesting ∧
      w'.coordinator = w.coordinator ∧ w'.mappers = w.mappers := by
  cases hworker : w.reducers j with
  | requesting => exact ⟨w, .init, hworker, rfl, rfl⟩
  | reading taskId nFile X result =>
    obtain ⟨w', hbrings, hj', hcoord, hmappers, -⟩ :=
      brings_reduceFinish hstd hspares clock i m hw hworker
    exact ⟨w', hbrings, hj', hcoord, hmappers⟩
  | finishing taskId =>
    obtain ⟨w', hbrings, hj', hcoord, hmappers, -⟩ :=
      brings_reduceFinish_of_finishing clock i m hworker
    exact ⟨w', hbrings, hj', hcoord, hmappers⟩
  | stopped => simp [hworker, ReduceWorker.live] at hj

theorem brings_deliver (clock : Nat → Int) (i j : Nat) (m : Moment) {sent : List Args} {args : Args}
    (hsent : w.sent = sent ++ [args]) : job.Brings clock i j m w (w.dispatch m args) := by
  have hstep : job.step w (.deliver sent.length m) = some (w.dispatch m args) := by
    simp [Job.step, hsent]
  exact Brings.step .init hstep rfl

/-! ### The phases -/

variable {T : Int} (hm : ∀ n, m.clock n = T)

include hstd hspares hopened hm in
/-- One round of the map worker finishes a map task. -/
theorem brings_mapRound (clock : Nat → Int) (hw : job.Sound w) (hexpired : w.coordinator.Expired T)
    (hi : w.mappers i = .requesting) (hne : w.coordinator.mTasks.keys ≠ ∅) :
    ∃ w', job.Brings clock i j m w w' ∧ w'.coordinator.Expired T ∧ w'.mappers i = .requesting ∧
      w'.reducers = w.reducers ∧ w'.coordinator.mTasks.len < w.coordinator.mTasks.len := by
  obtain ⟨accepted, hphased, -⟩ := hw.phased
  obtain ⟨fileName, hmem, taskId, hcoord, hreceive⟩ :=
    Coordinator.dispatchTask_mapRequest hm hexpired hne
  let w₁ := (w.dispatch m { reqType := .mapRequest }).setMapper i
    (.assigned fileName taskId w.coordinator.nReduce)
  have hstep : job.step w (.mapRequest i m) = some w₁ := by simp [Job.step, hi, hreceive, w₁]
  have hi₁ : w₁.mappers i = .assigned fileName taskId w.coordinator.nReduce :=
    Function.update_self ..
  have hcoord₁ : w₁.coordinator =
      { w.coordinator with mTasks := w.coordinator.mTasks.set fileName T } := hcoord
  obtain ⟨w₂, hbrings₂, hi₂, hcoord₂, hreducers₂, hsent₂⟩ :=
    brings_mapFinish hstd hopened clock j m (hw.step hstd hspares hstep) hi₁
  have hmem₁ : fileName ∈ w₁.coordinator.mTasks.keys := by
    rw [hcoord₁]
    exact GoMap.mem_keys_set.mpr (.inl rfl)
  have hafter := Coordinator.dispatchTask_mapFinish m hmem₁
  rw [hcoord₁, GoMap.delete_set] at hafter
  refine ⟨_, ((Brings.step .init hstep ⟨rfl, rfl⟩).trans hbrings₂).trans
    (brings_deliver clock i j m hsent₂), ?_, hi₂, hreducers₂, ?_⟩
  · simp only [World.dispatch, hcoord₂, hcoord₁, hafter]
    exact hexpired.mapFinish hm (hphased.waiting (.inl hne)).1
  · simp only [World.dispatch, hcoord₂, hcoord₁, hafter, GoMap.len, GoMap.keys_delete]
    exact Finset.card_erase_lt_of_mem hmem

include hstd hspares hm in
/-- One round of the reduce worker finishes a reduce task. -/
theorem brings_reduceRound (clock : Nat → Int) (hw : job.Sound w)
    (hexpired : w.coordinator.Expired T) (hj : w.reducers j = .requesting)
    (hmaps : w.coordinator.mTasks.keys = ∅) (hne : w.coordinator.rTasks.keys ≠ ∅) :
    ∃ w', job.Brings clock i j m w w' ∧ w'.coordinator.Expired T ∧ w'.reducers j = .requesting ∧
      w'.coordinator.mTasks.keys = ∅ ∧
      w'.coordinator.rTasks.len < w.coordinator.rTasks.len := by
  obtain ⟨taskId, hmem, hcoord, hreceive⟩ :=
    Coordinator.dispatchTask_reduceRequest hm hexpired hmaps hne
  let w₁ := (w.dispatch m { reqType := .reduceRequest }).setReducer j
    (.reading taskId w.coordinator.nfile 0 GoMap.empty)
  have hstep : job.step w (.reduceRequest j m) = some w₁ := by simp [Job.step, hj, hreceive, w₁]
  have hj₁ : w₁.reducers j = .reading taskId w.coordinator.nfile 0 GoMap.empty :=
    Function.update_self ..
  have hcoord₁ : w₁.coordinator =
      { w.coordinator with rTasks := w.coordinator.rTasks.set taskId T } := hcoord
  obtain ⟨w₂, hbrings₂, hj₂, hcoord₂, -, hsent₂⟩ :=
    brings_reduceFinish hstd hspares clock i m (hw.step hstd hspares hstep) hj₁
  have hmem₁ : taskId ∈ w₁.coordinator.rTasks.keys := by
    rw [hcoord₁]
    exact GoMap.mem_keys_set.mpr (.inl rfl)
  have hafter := Coordinator.dispatchTask_reduceFinish m (hcoord₁ ▸ hmaps) hmem₁
  rw [hcoord₁, GoMap.delete_set] at hafter
  refine ⟨_, ((Brings.step .init hstep ⟨rfl, rfl⟩).trans hbrings₂).trans
    (brings_deliver clock i j m hsent₂), ?_, hj₂, ?_, ?_⟩
  · simp only [World.dispatch, hcoord₂, hcoord₁, hafter]
    exact hexpired.reduceFinish
  · simpa only [World.dispatch, hcoord₂, hcoord₁, hafter] using hmaps
  · simp only [World.dispatch, hcoord₂, hcoord₁, hafter, GoMap.len, GoMap.keys_delete]
    exact Finset.card_erase_lt_of_mem hmem

include hstd hspares hopened hm in
theorem brings_mapPhase (clock : Nat → Int) (hw : job.Sound w) (hexpired : w.coordinator.Expired T)
    (hi : w.mappers i = .requesting) :
    ∃ w', job.Brings clock i j m w w' ∧ w'.coordinator.Expired T ∧ w'.reducers = w.reducers ∧
      w'.coordinator.mTasks.keys = ∅ := by
  have hphase := System.exists_reach_goal (job.system clock) (fun _ a => a.Of i j m)
    (fun w' => job.Sound w' ∧ w'.coordinator.Expired T ∧ w'.mappers i = .requesting ∧
      w'.reducers = w.reducers)
    (fun w' => w'.coordinator.mTasks.keys = ∅) (fun w' => w'.coordinator.mTasks.len) ?_
    ⟨hw, hexpired, hi, rfl⟩
  · obtain ⟨w', hbrings, ⟨-, hexpired', -, hreducers⟩, hdone⟩ := hphase
    exact ⟨w', hbrings, hexpired', hreducers, hdone⟩
  · rintro u ⟨hu, hexpired, hi, hreducers⟩ hne
    obtain ⟨v, hbrings, hexpired', hi', hreducers', hlt⟩ :=
      brings_mapRound hstd hspares hopened hm clock hu hexpired hi hne
    exact ⟨v, hbrings, ⟨hbrings.sound hstd hspares hu, hexpired', hi',
      hreducers'.trans hreducers⟩, hlt⟩

include hstd hspares hm in
theorem brings_reducePhase (clock : Nat → Int) (hw : job.Sound w)
    (hexpired : w.coordinator.Expired T) (hj : w.reducers j = .requesting)
    (hmaps : w.coordinator.mTasks.keys = ∅) :
    ∃ w', job.Brings clock i j m w w' ∧ w'.coordinator.done = true := by
  have hphase := System.exists_reach_goal (job.system clock) (fun _ a => a.Of i j m)
    (fun w' => job.Sound w' ∧ w'.coordinator.Expired T ∧ w'.reducers j = .requesting ∧
      w'.coordinator.mTasks.keys = ∅)
    (fun w' => w'.coordinator.rTasks.keys = ∅) (fun w' => w'.coordinator.rTasks.len) ?_
    ⟨hw, hexpired, hj, hmaps⟩
  · obtain ⟨w', hbrings, ⟨-, -, -, hmaps'⟩, hdone⟩ := hphase
    exact ⟨w', hbrings, Coordinator.done_iff.mpr ⟨hmaps', hdone⟩⟩
  · rintro u ⟨hu, hexpired, hj, hmaps⟩ hne
    obtain ⟨v, hbrings, hexpired', hj', hmaps', hlt⟩ :=
      brings_reduceRound hstd hspares hm clock hu hexpired hj hmaps hne
    exact ⟨v, hbrings, ⟨hbrings.sound hstd hspares hu, hexpired', hj', hmaps'⟩, hlt⟩

include hstd hspares hopened in
/-- The map tasks that are left are done by the map worker, if there are any. -/
theorem exists_mapsDone (clock : Nat → Int) (j : Nat) (hm : ∀ n, m.clock n = T) (hw : job.Sound w)
    (hexpired : w.coordinator.Expired T)
    (hi : w.coordinator.mTasks.keys ≠ ∅ → (w.mappers i).live = true) :
    ∃ w', job.Brings clock i j m w w' ∧ w'.coordinator.Expired T ∧ w'.reducers = w.reducers ∧
      w'.coordinator.mTasks.keys = ∅ := by
  by_cases hne : w.coordinator.mTasks.keys = ∅
  · exact ⟨w, .init, hexpired, rfl, hne⟩
  · obtain ⟨w₁, hbrings₁, hi₁, hcoord₁, hreducers₁⟩ :=
      brings_mapper_requesting hstd hopened clock j m hw (hi hne)
    obtain ⟨w₂, hbrings₂, hexpired₂, hreducers₂, hdone⟩ := brings_mapPhase hstd hspares hopened hm
      clock (hbrings₁.sound hstd hspares hw) (hcoord₁ ▸ hexpired) hi₁
    exact ⟨w₂, hbrings₁.trans hbrings₂, hexpired₂, hreducers₂.trans hreducers₁, hdone⟩

end Tasks

theorem anyStep_of_brings (hreach : System.Reach (job.system clock) System.anyStep w)
    (hbrings : job.Brings clock i j m w w') : System.Reach (job.system clock) System.anyStep w' :=
  System.reach_startingAt hreach (hbrings.mono fun _ _ _ _ _ => trivial)

end Job

/-- **Two live workers finish the job.** In whatever state it is, with tasks lost by workers that
have crashed and messages that were never handled: if one map worker (while map tasks are left) and
one reduce worker have not stopped, then from some time on these two can bring the job to its end
by themselves, and the output files then have the lines of the sequential job. -/
theorem live_workers_finish {Path : Type} [DecidableEq Path] {job : Job Path}
    (hstd : job.Standard) (hspares : job.SparesInputs) (hfiles : job.files ≠ [])
    (hopened : ∀ fileName ∈ job.files, (job.disk (job.resolve fileName)).isSome)
    {clock : Nat → Int} {w : World Path}
    (hreach : System.Reach (job.system clock) System.anyStep w) {i j : Nat}
    (hi : w.coordinator.mTasks.len ≠ 0 → (w.mappers i).live = true)
    (hj : w.coordinator.done = false → (w.reducers j).live = true) (byKey : ByKey) :
    ∃ T₀, ∀ T ≥ T₀, ∀ m : Moment, (∀ n, m.clock n = T) →
      ∃ w', System.Reach ((job.system clock).startingAt w) (fun _ a => a.Of i j m) w' ∧
        w'.coordinator.done = true ∧
        ∃ text, job.mrsequential byKey = some text ∧
          (w'.outputLines job).Perm (GoString.lines text) := by
  have hw := Job.sound_of_reach hstd hspares hreach
  obtain ⟨T₀, hT₀⟩ := w.coordinator.exists_expired
  refine ⟨T₀, fun T hT m hm => ?_⟩
  suffices hfinish : ∃ w', job.Brings clock i j m w w' ∧ w'.coordinator.done = true by
    obtain ⟨w', hbrings, hdone⟩ := hfinish
    exact ⟨w', hbrings, hdone, Job.perm_outputLines hstd hspares hfiles byKey
      (Job.anyStep_of_brings hreach hbrings) hdone⟩
  cases hdone : w.coordinator.done with
  | true => exact ⟨w, .init, hdone⟩
  | false =>
    obtain ⟨w₁, hbrings₁, hexpired₁, hreducers₁, hmaps₁⟩ := Job.exists_mapsDone hstd hspares hopened
      clock j hm hw (hT₀ T hT) fun hne => hi fun hlen => hne (Finset.card_eq_zero.mp hlen)
    have hw₁ := hbrings₁.sound hstd hspares hw
    obtain ⟨w₂, hbrings₂, hj₂, hcoord₂, -⟩ := Job.brings_reducer_requesting hstd hspares clock i m
      hw₁ (hreducers₁ ▸ hj hdone)
    obtain ⟨w₃, hbrings₃, hdone₃⟩ := Job.brings_reducePhase hstd hspares hm clock
      (hbrings₂.sound hstd hspares hw₁) (hcoord₂ ▸ hexpired₁) hj₂ (hcoord₂ ▸ hmaps₁)
    exact ⟨w₃, (hbrings₁.trans hbrings₂).trans hbrings₃, hdone₃⟩

/-- A map worker crashes with a task, another is in the middle of one, and the first reduce worker
has crashed before it got any. -/
def tasksLost : List Action :=
  [.mapRequest 0 atOneHour, .mapCrash 0, .mapRequest 1 atOneHour, .mapRead 1 (.insertion _),
    .mapRename 1, .reduceCrash 0]

theorem tasksLost_runs :
    (((twoFiles (.lit "b")).system fun _ => 0).run ((twoFiles (.lit "b")).system fun _ => 0).init
      tasksLost).map (fun w => decide (w.coordinator.mTasks.len = 2 ∧
        (w.mappers 0).live = false ∧ (w.mappers 1).live = true ∧ (w.reducers 0).live = false ∧
        (w.reducers 1).live = true)) = some true := by
  decide +kernel

theorem live_workers_finish_tasksLost :
    ∃ w : World GoString, w.coordinator.mTasks.len = 2 ∧ (w.mappers 0).live = false ∧
      (w.reducers 0).live = false ∧
      ∃ T₀, ∀ T ≥ T₀, ∀ m : Moment, (∀ n, m.clock n = T) →
        ∃ w', System.Reach (((twoFiles (.lit "b")).system fun _ => 0).startingAt w)
            (fun _ a => a.Of 1 1 m) w' ∧
          w'.coordinator.done = true ∧
          ∃ text, (twoFiles (.lit "b")).mrsequential (.insertion _) = some text ∧
            (w'.outputLines (twoFiles (.lit "b"))).Perm (GoString.lines text) := by
  obtain ⟨w, hrun, hw⟩ := Option.map_eq_some_iff.mp tasksLost_runs
  obtain ⟨hlen, hcrashed, hmapper, hcrashed', hreducer⟩ := of_decide_eq_true hw
  have hreach := System.reach_run .init (fun _ _ => trivial) tasksLost hrun
  have hstd : (twoFiles (.lit "b")).Standard :=
    contentJob_standard (by decide) (by decide) (by decide +kernel)
  exact ⟨w, hlen, hcrashed, hcrashed', live_workers_finish hstd (by decide +kernel)
    (fun hnil => nomatch hnil) (by decide +kernel) hreach (fun _ => hmapper) (fun _ => hreducer) _⟩

end RaftLabs.MapReduce
