import RaftLabs.Lib.GoMap
import RaftLabs.Lib.GoString
import RaftLabs.Lib.Transition

/-! The MapReduce coordinator (`mr/coordinator.go`, `mr/rpc.go`).

The coordinator keeps one entry for every unfinished task: `mTasks` by file name, `rTasks` by
task id, each with the time at which the task was last handed out. Its phase is not stored: it
is read off from which of the two maps are empty. Times are nanoseconds. A request brings along
what Go leaves open while it is handled: the order of the two range loops and the readings of
the clock, which may be any numbers. -/
namespace RaftLabs.MapReduce
open Lib

inductive CoordinatorStatus where
  | initStatus
  | mapStatus
  | reduceStatus
  | shutDowned
  deriving DecidableEq, Repr

inductive RequestType where
  | mapRequest
  | reduceRequest
  | mapFinishRequest
  | reduceFinishRequest
  deriving DecidableEq, Repr

inductive ReplyType where
  | noTask
  | newTask
  deriving DecidableEq, Repr

structure Args where
  reqType : RequestType
  mapFinishedFileName : GoString := []
  reduceFinishedTaskId : Int := 0
  deriving DecidableEq

structure Reply where
  nFile : Int
  nReduce : Int
  masterStatus : CoordinatorStatus
  mapTaskId : Int := 0
  mapFileName : GoString := []
  reduceTaskId : Int := 0
  replyCode : ReplyType

structure Coordinator where
  nfile : Int
  nReduce : Int
  files : GoMap GoString Int
  mTasks : GoMap GoString Int
  rTasks : GoMap Int Int
  deriving DecidableEq

/-- What Go leaves open while one request is handled. -/
structure Moment where
  fileOrder : RangeOrder GoString
  taskOrder : RangeOrder Int
  clock : Nat → Int

def second : Int := 1000000000
def hour : Int := 3600 * second

/-- The first task of a range loop that was handed out more than ten seconds ago; every round
reads the clock. -/
def firstExpired {K : Type} (clock : Nat → Int) (lastTime : K → Int) : Nat → List K → Option K
  | _, [] => none
  | round, task :: rest =>
    if clock round - lastTime task > 10 * second then some task
    else firstExpired clock lastTime (round + 1) rest

namespace Coordinator

def getCoordinatorStatus (c : Coordinator) : CoordinatorStatus :=
  if c.mTasks.len = 0 ∧ c.rTasks.len = 0 then .shutDowned
  else if c.mTasks.len ≠ 0 then .mapStatus
  else if c.rTasks.len ≠ 0 then .reduceStatus
  else .initStatus

/-- The loop that makes every reduce task available. -/
def fillReduceTasks (clock : Nat → Int) (nReduce : Int) (rTasks : GoMap Int Int) : GoMap Int Int :=
  (List.range nReduce.toNat).foldl (fun tasks (i : Nat) => tasks.set i (clock i - hour)) rTasks

def dispatchTask (m : Moment) (c : Coordinator) (args : Args) : Coordinator × Reply :=
  let status := c.getCoordinatorStatus
  let reply : Reply :=
    { masterStatus := status, replyCode := .noTask, nFile := c.nfile, nReduce := c.nReduce }
  if status = .shutDowned then (c, reply)
  else match args.reqType with
    | .mapRequest =>
      if status = .mapStatus then
        match firstExpired m.clock (c.mTasks.getD · 0) 0 (m.fileOrder.list c.mTasks.keys) with
        | none => (c, reply)
        | some fileName =>
          ({ c with mTasks := c.mTasks.set fileName (m.clock c.mTasks.len) },
            { reply with
              replyCode := .newTask
              mapFileName := fileName
              mapTaskId := c.files.getD fileName 0 })
      else (c, reply)
    | .reduceRequest =>
      if status = .reduceStatus then
        match firstExpired m.clock (c.rTasks.getD · 0) 0 (m.taskOrder.list c.rTasks.keys) with
        | none => (c, reply)
        | some taskId =>
          ({ c with rTasks := c.rTasks.set taskId (m.clock c.rTasks.len) },
            { reply with replyCode := .newTask, reduceTaskId := taskId })
      else (c, reply)
    | .mapFinishRequest =>
      if status = .mapStatus then
        if (c.mTasks.get? args.mapFinishedFileName).isSome then
          let c := { c with mTasks := c.mTasks.delete args.mapFinishedFileName }
          if c.mTasks.len = 0 then
            ({ c with rTasks := fillReduceTasks m.clock c.nReduce c.rTasks }, reply)
          else (c, reply)
        else (c, reply)
      else (c, reply)
    | .reduceFinishRequest =>
      if status = .reduceStatus then
        if (c.rTasks.get? args.reduceFinishedTaskId).isSome then
          ({ c with rTasks := c.rTasks.delete args.reduceFinishedTaskId }, reply)
        else (c, reply)
      else (c, reply)

def done (c : Coordinator) : Bool := c.mTasks.len = 0 ∧ c.rTasks.len = 0

/-- One round of the loop over the files: the index of the file, and its map task. -/
def addFile (clock : Nat → Int) (tables : GoMap GoString Int × GoMap GoString Int)
    (entry : GoString × Nat) : GoMap GoString Int × GoMap GoString Int :=
  (tables.1.set entry.1 entry.2, tables.2.set entry.1 (clock entry.2 - hour))

/-- `MakeCoordinator`, where `clock i` is the reading for the `i`-th file. -/
def makeCoordinator (clock : Nat → Int) (files : List GoString) (nReduce : Int) : Coordinator :=
  let tables := files.zipIdx.foldl (addFile clock) (GoMap.empty, GoMap.empty)
  { nfile := files.length
    nReduce
    files := tables.1
    mTasks := tables.2
    rTasks := GoMap.empty }

theorem mem_keys_foldl_addFile {clock : Nat → Int} {files : List GoString} {start : Nat}
    {tables : GoMap GoString Int × GoMap GoString Int} {fileName : GoString} :
    fileName ∈ ((files.zipIdx start).foldl (addFile clock) tables).2.keys ↔
      fileName ∈ tables.2.keys ∨ fileName ∈ files := by
  induction files generalizing start tables with
  | nil => simp
  | cons f rest ih =>
    rw [List.zipIdx_cons, List.foldl_cons, ih, addFile, GoMap.mem_keys_set, List.mem_cons,
      or_comm (a := fileName = f), or_assoc]

theorem getD_foldl_addFile_of_notMem {clock : Nat → Int} {files : List GoString} {start : Nat}
    {tables : GoMap GoString Int × GoMap GoString Int} {fileName : GoString}
    (hfresh : fileName ∉ files) :
    ((files.zipIdx start).foldl (addFile clock) tables).1.getD fileName 0 =
      tables.1.getD fileName 0 := by
  induction files generalizing start tables with
  | nil => rfl
  | cons f rest ih =>
    rw [List.mem_cons, not_or] at hfresh
    rw [List.zipIdx_cons, List.foldl_cons, ih hfresh.2, addFile, GoMap.getD_set, if_neg hfresh.1]

theorem getD_foldl_addFile {clock : Nat → Int} {files : List GoString} {start index : Nat}
    {tables : GoMap GoString Int × GoMap GoString Int} {fileName : GoString} (hnodup : files.Nodup)
    (hindex : files[index]? = some fileName) :
    ((files.zipIdx start).foldl (addFile clock) tables).1.getD fileName 0 =
      (start + index : Nat) := by
  induction files generalizing start index tables with
  | nil => simp at hindex
  | cons f rest ih =>
    obtain ⟨hfresh, hrest⟩ := List.nodup_cons.mp hnodup
    rw [List.zipIdx_cons, List.foldl_cons]
    cases index with
    | zero =>
      obtain rfl : f = fileName := by simpa using hindex
      rw [getD_foldl_addFile_of_notMem hfresh, addFile, GoMap.getD_set, if_pos rfl, Nat.add_zero]
    | succ index =>
      rw [ih hrest (by simpa using hindex)]
      congr 1
      omega

theorem mem_keys_makeCoordinator {clock : Nat → Int} {files : List GoString} {nReduce : Int}
    {fileName : GoString} :
    fileName ∈ (makeCoordinator clock files nReduce).mTasks.keys ↔ fileName ∈ files := by
  simp [makeCoordinator, mem_keys_foldl_addFile]

theorem getD_makeCoordinator {clock : Nat → Int} {files : List GoString} {nReduce : Int}
    {fileName : GoString} {index : Nat} (hnodup : files.Nodup)
    (hindex : files[index]? = some fileName) :
    (makeCoordinator clock files nReduce).files.getD fileName 0 = index := by
  rw [makeCoordinator, getD_foldl_addFile hnodup hindex, Nat.zero_add]

/-! ### The phase -/

theorem done_iff {c : Coordinator} : c.done = true ↔ c.mTasks.keys = ∅ ∧ c.rTasks.keys = ∅ := by
  simp [done, GoMap.len]

theorem getCoordinatorStatus_eq_shutDowned {c : Coordinator} :
    c.getCoordinatorStatus = .shutDowned ↔ c.mTasks.keys = ∅ ∧ c.rTasks.keys = ∅ := by
  simp only [getCoordinatorStatus, GoMap.len, Finset.card_eq_zero]
  split_ifs <;> simp_all

theorem getCoordinatorStatus_eq_reduceStatus {c : Coordinator} :
    c.getCoordinatorStatus = .reduceStatus ↔ c.mTasks.keys = ∅ ∧ c.rTasks.keys ≠ ∅ := by
  simp only [getCoordinatorStatus, GoMap.len, Finset.card_eq_zero]
  split_ifs <;> simp_all

/-! ### What a request does -/

theorem firstExpired_mem {K : Type} {clock : Nat → Int} {lastTime : K → Int} {round : Nat}
    {tasks : List K} {task : K} (h : firstExpired clock lastTime round tasks = some task) :
    task ∈ tasks := by
  induction tasks generalizing round with
  | nil => simp [firstExpired] at h
  | cons t rest ih =>
    rw [firstExpired] at h
    split at h
    · cases h
      exact List.mem_cons_self
    · exact List.mem_cons_of_mem _ (ih h)

theorem mem_keys_fillReduceTasks {clock : Nat → Int} {nReduce : Int} {rTasks : GoMap Int Int}
    {id : Int} :
    id ∈ (fillReduceTasks clock nReduce rTasks).keys ↔
      (0 ≤ id ∧ id < nReduce) ∨ id ∈ rTasks.keys := by
  have hfold : ∀ n : Nat, id ∈ ((List.range n).foldl
      (fun tasks (i : Nat) => tasks.set i (clock i - hour)) rTasks).keys ↔
        (0 ≤ id ∧ id < n) ∨ id ∈ rTasks.keys := by
    intro n
    induction n with
    | zero => exact (or_iff_right (by omega)).symm
    | succ n ih =>
      rw [List.range_succ, List.foldl_append, List.foldl_cons, List.foldl_nil, GoMap.mem_keys_set,
        ih, ← or_assoc]
      exact or_congr_left (by omega)
  exact (hfold _).trans (or_congr_left (by omega))

/-- The finish of a task. -/
inductive Finish where
  | map (fileName : GoString)
  | reduce (taskId : Int)
  deriving DecidableEq

/-- The finish that the request reports and the coordinator accepts: in the phase of the task,
and while the task is unfinished. -/
def accepts (c : Coordinator) (args : Args) : Option Finish :=
  match args.reqType with
  | .mapFinishRequest =>
    if c.getCoordinatorStatus = .mapStatus ∧ args.mapFinishedFileName ∈ c.mTasks.keys
    then some (.map args.mapFinishedFileName) else none
  | .reduceFinishRequest =>
    if c.getCoordinatorStatus = .reduceStatus ∧ args.reduceFinishedTaskId ∈ c.rTasks.keys
    then some (.reduce args.reduceFinishedTaskId) else none
  | _ => none

/-- What one request does to the coordinator, with the reply it gets. -/
inductive Handles (c : Coordinator) (args : Args) : Coordinator → Reply → Prop where
  | nothing {reply : Reply} (haccepts : c.accepts args = none) (hcode : reply.replyCode = .noTask) :
      Handles c args c reply
  | mapTask {fileName : GoString} {time : Int} {reply : Reply} (hreq : args.reqType = .mapRequest)
      (hmem : fileName ∈ c.mTasks.keys) (hname : reply.mapFileName = fileName)
      (hid : reply.mapTaskId = c.files.getD fileName 0) :
      Handles c args { c with mTasks := c.mTasks.set fileName time } reply
  | reduceTask {taskId time : Int} {reply : Reply} (hreq : args.reqType = .reduceRequest)
      (hphase : c.mTasks.keys = ∅) (hmem : taskId ∈ c.rTasks.keys)
      (hid : reply.reduceTaskId = taskId) :
      Handles c args { c with rTasks := c.rTasks.set taskId time } reply
  | mapFinish {fileName : GoString} {reply : Reply}
      (haccepts : c.accepts args = some (.map fileName))
      (hmem : fileName ∈ c.mTasks.keys) (hmore : (c.mTasks.delete fileName).keys ≠ ∅)
      (hcode : reply.replyCode = .noTask) :
      Handles c args { c with mTasks := c.mTasks.delete fileName } reply
  | lastMapFinish {fileName : GoString} {clock : Nat → Int} {reply : Reply}
      (haccepts : c.accepts args = some (.map fileName)) (hmem : fileName ∈ c.mTasks.keys)
      (hlast : (c.mTasks.delete fileName).keys = ∅) (hcode : reply.replyCode = .noTask) :
      Handles c args
        { c with
          mTasks := c.mTasks.delete fileName
          rTasks := fillReduceTasks clock c.nReduce c.rTasks } reply
  | reduceFinish {taskId : Int} {reply : Reply} (haccepts : c.accepts args = some (.reduce taskId))
      (hphase : c.mTasks.keys = ∅) (hmem : taskId ∈ c.rTasks.keys)
      (hcode : reply.replyCode = .noTask) :
      Handles c args { c with rTasks := c.rTasks.delete taskId } reply

theorem dispatchTask_handles (m : Moment) (c : Coordinator) (args : Args) :
    Handles c args (c.dispatchTask m args).1 (c.dispatchTask m args).2 := by
  by_cases hdone : c.getCoordinatorStatus = .shutDowned
  · rw [dispatchTask, if_pos hdone]
    refine .nothing ?_ rfl
    simp only [accepts, hdone]
    split <;> rfl
  rw [dispatchTask, if_neg hdone]
  cases hreq : args.reqType with
  | mapRequest =>
    have haccepts : c.accepts args = none := by simp only [accepts, hreq]
    simp only
    split
    · split
      · exact .nothing haccepts rfl
      · rename_i hfound
        exact .mapTask hreq (m.fileOrder.mem_list.mp (firstExpired_mem hfound)) rfl rfl
    · exact .nothing haccepts rfl
  | reduceRequest =>
    have haccepts : c.accepts args = none := by simp only [accepts, hreq]
    simp only
    split
    · rename_i hstatus
      split
      · exact .nothing haccepts rfl
      · rename_i hfound
        exact .reduceTask hreq (getCoordinatorStatus_eq_reduceStatus.mp hstatus).1
          (m.taskOrder.mem_list.mp (firstExpired_mem hfound)) rfl
    · exact .nothing haccepts rfl
  | mapFinishRequest =>
    simp only [← GoMap.mem_keys]
    split
    · rename_i hstatus
      split
      · rename_i hmem
        have haccepts : c.accepts args = some (.map args.mapFinishedFileName) := by
          simp [accepts, hreq, hstatus, hmem]
        split
        · rename_i hlast
          exact .lastMapFinish haccepts hmem (Finset.card_eq_zero.mp hlast) rfl
        · rename_i hmore
          exact .mapFinish haccepts hmem (fun hlast => hmore (Finset.card_eq_zero.mpr hlast)) rfl
      · rename_i hmem
        exact .nothing (by simp [accepts, hreq, hmem]) rfl
    · rename_i hstatus
      exact .nothing (by simp [accepts, hreq, hstatus]) rfl
  | reduceFinishRequest =>
    simp only [← GoMap.mem_keys]
    split
    · rename_i hstatus
      split
      · rename_i hmem
        exact .reduceFinish (by simp [accepts, hreq, hstatus, hmem])
          (getCoordinatorStatus_eq_reduceStatus.mp hstatus).1 hmem rfl
      · rename_i hmem
        exact .nothing (by simp [accepts, hreq, hmem]) rfl
    · rename_i hstatus
      exact .nothing (by simp [accepts, hreq, hstatus]) rfl

/-- What no request changes. -/
theorem Handles.constant {c c' : Coordinator} {args : Args} {reply : Reply}
    (h : Handles c args c' reply) : c'.nfile = c.nfile ∧ c'.files = c.files := by
  cases h <;> exact ⟨rfl, rfl⟩

/-- The parts of a reply that do not depend on the request. -/
theorem dispatchTask_reply (m : Moment) (c : Coordinator) (args : Args) :
    (c.dispatchTask m args).2.nFile = c.nfile ∧ (c.dispatchTask m args).2.nReduce = c.nReduce ∧
      (c.dispatchTask m args).2.masterStatus = c.getCoordinatorStatus := by
  simp only [dispatchTask]
  repeat' split
  all_goals exact ⟨rfl, rfl, rfl⟩

end Coordinator
end RaftLabs.MapReduce
