import RaftLabs.Lib.Grouping
import RaftLabs.MapReduce.Coordinator

/-! Distributed and sequential MapReduce (`mr/worker.go`, `main/mrsequential.go`).

A `Job` is what the two programs are given: the files, the application's `mapf` and `reducef`,
the JSON encoding, and the directory they run in. In the distributed job any number of map and
reduce workers run beside each other. What a worker does between two accesses to shared state is
one step: it asks the coordinator for a task, opens a file and reads it, renames a finished
temporary file to its final name, or sends its finish message. A worker may crash between any two
steps; a finish message may be handled late, repeatedly or never. -/
namespace RaftLabs.MapReduce
open Lib

structure KeyValue where
  key : GoString
  value : GoString
  deriving DecidableEq

/-- The 32-bit FNV-1a hash, without its sign bit. -/
def ihash (key : GoString) : Nat :=
  (key.foldl (fun h b => (h ^^^ UInt32.ofNat b.val) * 16777619) 2166136261 &&& 0x7fffffff).toNat

/-- `"mr-X-Y"`. -/
def mapOutput (X Y : Int) : GoString := .lit "mr-" ++ .itoa X ++ .lit "-" ++ .itoa Y

/-- `"mr-out-Y"`. -/
def reduceOutput (Y : Int) : GoString := .lit "mr-out-" ++ .itoa Y

/-- The slices of `intermediate` for the reduce tasks; `none` is a panic. -/
def kvlists (nReduce : Int) (intermediate : List KeyValue) : Option (List (List KeyValue)) :=
  if nReduce < 0 ∨ nReduce = 0 ∧ intermediate ≠ [] then none
  else some (intermediate.foldl
    (fun lists kv => lists.modify (ihash kv.key % nReduce.toNat) (· ++ [kv]))
    (List.replicate nReduce.toNat []))

/-- `fmt.Fprintf(file, "%v %v\n", k, v)`. -/
def fprintf (k v : GoString) : GoString := k ++ .lit " " ++ v ++ [GoString.newline]

/-- `result[kv.Key] = append(result[kv.Key], kv.Value)`, for every decoded pair. -/
def collect (result : GoMap GoString (List GoString)) (kvs : List KeyValue) :
    GoMap GoString (List GoString) :=
  kvs.foldl (fun result kv => result.set kv.key (result.getD kv.key [] ++ [kv.value])) result

/-- What the programs are given. `decode` reads pairs until the end of a file, `resolve` tells
which file a name stands for, and `disk` is what the files hold at the start. -/
structure Job (Path : Type) where
  files : List GoString
  nReduce : Int
  mapf : GoString → GoString → List KeyValue
  reducef : GoString → List GoString → GoString
  encode : KeyValue → GoString
  decode : GoString → List KeyValue
  resolve : GoString → Path
  disk : Path → Option GoString

/-- A run of `sort.Sort(ByKey(..))`. -/
abbrev ByKey := Grouping.Sorting KeyValue.key

/-! ### The workers of the distributed job -/

inductive MapWorker where
  | requesting
  | assigned (mapFileName : GoString) (mapTaskId nReduce : Int)
  | writing (mapFileName : GoString) (mapTaskId : Int) (index : Nat)
      (kvlists : List (List KeyValue))
  | stopped

inductive ReduceWorker where
  | requesting
  | reading (reduceTaskId nFile : Int) (X : Nat) (result : GoMap GoString (List GoString))
  | finishing (reduceTaskId : Int)
  | stopped

/-- `MapTaskWoker` after the reply to its request. -/
def MapWorker.receive (reply : Reply) : MapWorker :=
  if reply.masterStatus ≠ .mapStatus then .stopped
  else match reply.replyCode with
    | .noTask => .requesting
    | .newTask => .assigned reply.mapFileName reply.mapTaskId reply.nReduce

/-- `ReduceTaskWorker` after the reply to its request. -/
def ReduceWorker.receive (reply : Reply) : ReduceWorker :=
  match reply.masterStatus with
  | .shutDowned => .stopped
  | .reduceStatus =>
    match reply.replyCode with
    | .noTask => .requesting
    | .newTask => .reading reply.reduceTaskId reply.nFile 0 GoMap.empty
  | _ => .requesting

namespace Job
variable {Path : Type} (job : Job Path)

/-- Opens the input file, applies `mapf` and sorts the pairs into slices. -/
def mapTask (byKey : ByKey) (disk : Path → Option GoString) (fileName : GoString)
    (taskId nReduce : Int) : MapWorker :=
  match disk (job.resolve fileName) with
  | none => .stopped
  | some content =>
    match kvlists nReduce (byKey.sort (job.mapf fileName content)) with
    | none => .stopped
    | some lists => .writing fileName taskId 0 lists

/-- Opens the next intermediate file and collects its pairs. -/
def readTask (disk : Path → Option GoString) (taskId nFile : Int) (X : Nat)
    (result : GoMap GoString (List GoString)) : ReduceWorker :=
  match disk (job.resolve (mapOutput X taskId)) with
  | none => .stopped
  | some content => .reading taskId nFile (X + 1) (collect result (job.decode content))

/-- What a reduce worker writes, in the order of its range loop. -/
def reduceText (order : RangeOrder GoString) (result : GoMap GoString (List GoString)) : GoString :=
  (order.list result.keys).flatMap fun k => fprintf k (job.reducef k (result.getD k []))

/-! ### The sequential job -/

/-- The loop over the input files; `none` when a file cannot be opened. -/
def intermediate : Option (List KeyValue) :=
  job.files.foldlM
    (fun kvs fileName => (job.disk (job.resolve fileName)).map (kvs ++ job.mapf fileName ·)) []

/-- What `mrsequential` writes to its output file. -/
def mrsequential (byKey : ByKey) : Option GoString :=
  job.intermediate.map fun kvs =>
    (Grouping.blocks KeyValue.key KeyValue.value (byKey.sort kvs)).flatMap fun block =>
      fprintf block.1 (job.reducef block.1 block.2)

end Job

/-! ### The distributed job -/

structure World (Path : Type) where
  coordinator : Coordinator
  disk : Path → Option GoString
  mappers : Nat → MapWorker
  reducers : Nat → ReduceWorker
  sent : List Args

inductive Action where
  | mapRequest (worker : Nat) (m : Moment)
  | mapRead (worker : Nat) (byKey : ByKey)
  | mapRename (worker : Nat)
  | mapFinish (worker : Nat)
  | mapCrash (worker : Nat)
  | reduceRequest (worker : Nat) (m : Moment)
  | reduceRead (worker : Nat)
  | reduceRename (worker : Nat) (order : RangeOrder GoString)
  | reduceFinish (worker : Nat)
  | reduceCrash (worker : Nat)
  | deliver (message : Nat) (m : Moment)

namespace World
variable {Path : Type} (w : World Path)

def setMapper (worker : Nat) (s : MapWorker) : World Path :=
  { w with mappers := Function.update w.mappers worker s }

def setReducer (worker : Nat) (s : ReduceWorker) : World Path :=
  { w with reducers := Function.update w.reducers worker s }

/-- `os.Rename` of a finished temporary file. -/
def rename [DecidableEq Path] (path : Path) (content : GoString) : World Path :=
  { w with disk := Function.update w.disk path (some content) }

def send (args : Args) : World Path := { w with sent := w.sent ++ [args] }

def dispatch (m : Moment) (args : Args) : World Path :=
  { w with coordinator := (w.coordinator.dispatchTask m args).1 }

/-- The lines of `mr-out-0` to `mr-out-(nReduce-1)`. -/
def outputLines (job : Job Path) : List GoString :=
  (List.range job.nReduce.toNat).flatMap fun Y : Nat =>
    GoString.lines ((w.disk (job.resolve (reduceOutput Y))).getD [])

end World

namespace Job
variable {Path : Type} [DecidableEq Path] (job : Job Path)

def step (w : World Path) : Action → Option (World Path)
  | .mapRequest i m =>
    match w.mappers i with
    | .requesting =>
      let args : Args := { reqType := .mapRequest }
      some ((w.dispatch m args).setMapper i (.receive (w.coordinator.dispatchTask m args).2))
    | _ => none
  | .mapRead i byKey =>
    match w.mappers i with
    | .assigned fileName taskId nReduce =>
      some (w.setMapper i (job.mapTask byKey w.disk fileName taskId nReduce))
    | _ => none
  | .mapRename i =>
    match w.mappers i with
    | .writing fileName taskId index (kvlist :: rest) =>
      some ((w.rename (job.resolve (.lit "./" ++ mapOutput taskId index))
        (kvlist.flatMap job.encode)).setMapper i (.writing fileName taskId (index + 1) rest))
    | _ => none
  | .mapFinish i =>
    match w.mappers i with
    | .writing fileName _ _ [] =>
      some ((w.send { reqType := .mapFinishRequest, mapFinishedFileName := fileName }).setMapper i
        .requesting)
    | _ => none
  | .mapCrash i => some (w.setMapper i .stopped)
  | .reduceRequest i m =>
    match w.reducers i with
    | .requesting =>
      let args : Args := { reqType := .reduceRequest }
      some ((w.dispatch m args).setReducer i (.receive (w.coordinator.dispatchTask m args).2))
    | _ => none
  | .reduceRead i =>
    match w.reducers i with
    | .reading taskId nFile X result =>
      if (X : Int) < nFile then some (w.setReducer i (job.readTask w.disk taskId nFile X result))
      else none
    | _ => none
  | .reduceRename i order =>
    match w.reducers i with
    | .reading taskId nFile X result =>
      if (X : Int) < nFile then none
      else some ((w.rename (job.resolve (.lit "./" ++ reduceOutput taskId))
        (job.reduceText order result)).setReducer i (.finishing taskId))
    | _ => none
  | .reduceFinish i =>
    match w.reducers i with
    | .finishing taskId =>
      some ((w.send { reqType := .reduceFinishRequest, reduceFinishedTaskId := taskId }).setReducer
        i .requesting)
    | _ => none
  | .reduceCrash i => some (w.setReducer i .stopped)
  | .deliver message m => (w.sent[message]?).map (w.dispatch m)

/-- The job with any number of workers, none of which has a task yet. -/
def system (clock : Nat → Int) : System (World Path) Action where
  init :=
    { coordinator := .makeCoordinator clock job.files job.nReduce
      disk := job.disk
      mappers := fun _ => .requesting
      reducers := fun _ => .requesting
      sent := [] }
  step := job.step

end Job
end RaftLabs.MapReduce
