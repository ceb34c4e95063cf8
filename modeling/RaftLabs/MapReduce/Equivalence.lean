import RaftLabs.Lib.GoJson
import RaftLabs.MapReduce.Tasks

/-! The distributed job writes the lines of the sequential one.

Both make one line of every key and its values. The sequential job sorts all pairs and cuts them
into blocks; the distributed job splits the pairs of every file by a hash of the key and collects
every part in a map. The order of the keys and of the values of a key differ, so the lines agree
up to their order. The input files must survive the job: one that has the name of an intermediate
file is overwritten before it is read. -/
namespace RaftLabs.MapReduce
open Lib

/-! ### Collecting pairs in a map -/

theorem getD_collect (kvs : List KeyValue) (k : GoString) :
    (collect GoMap.empty kvs).getD k [] =
      Grouping.valuesOf KeyValue.key KeyValue.value kvs k := by
  rw [collect, GoMap.getD_foldl_collect]
  rfl

theorem eachKey_collect (order : RangeOrder GoString) (kvs : List KeyValue) :
    Grouping.EachKey KeyValue.key kvs (order.list (collect GoMap.empty kvs).keys) where
  nodup := order.nodup _
  mem_iff k := by simp [collect, GoMap.mem_keys_foldl_collect]

namespace Job
variable {Path : Type} {job : Job Path}

/-- The lines that a key and its values are turned into. -/
def linesFor (job : Job Path) (k : GoString) (vs : List GoString) : List GoString :=
  GoString.lines (fprintf k (job.reducef k vs))

theorem lines_flatMap_fprintf {α : Type} (l : List α) (k v : α → GoString) :
    GoString.lines (l.flatMap fun a => fprintf (k a) (v a)) =
      l.flatMap fun a => GoString.lines (fprintf (k a) (v a)) :=
  GoString.lines_flatMap (fun a => k a ++ .lit " " ++ v a) l

theorem lines_reduceText (order : RangeOrder GoString) (kvs : List KeyValue) :
    GoString.lines (job.reduceText order (collect GoMap.empty kvs)) =
      (order.list (collect GoMap.empty kvs).keys).flatMap fun k =>
        job.linesFor k (Grouping.valuesOf KeyValue.key KeyValue.value kvs k) := by
  simp only [reduceText, getD_collect]
  exact lines_flatMap_fprintf _ (fun k => k) _

/-- The lines of a finished output file. -/
theorem Reduced.lines {disk : Path → Option GoString} {Y : Nat} (h : job.Reduced disk Y) :
    ∃ (kvs : List KeyValue) (ks : List GoString),
      kvs.Perm (job.part Y (job.files.flatMap job.emitted)) ∧
      Grouping.EachKey KeyValue.key kvs ks ∧
      GoString.lines ((disk (job.resolve (reduceOutput Y))).getD []) =
        ks.flatMap fun k =>
          job.linesFor k (Grouping.valuesOf KeyValue.key KeyValue.value kvs k) := by
  obtain ⟨order, kvs, hdisk, hkvs⟩ := h
  refine ⟨kvs, _, hkvs, eachKey_collect order kvs, ?_⟩
  rw [hdisk, Option.getD_some, lines_reduceText]

/-! ### The sequential job -/

/-- The loop over files that can all be opened, from the pairs of earlier ones. -/
theorem foldlM_emitted (files : List GoString) (kvs : List KeyValue)
    (hopened : ∀ fileName ∈ files, (job.disk (job.resolve fileName)).isSome) :
    files.foldlM
      (fun kvs fileName => (job.disk (job.resolve fileName)).map (kvs ++ job.mapf fileName ·))
      kvs = some (kvs ++ files.flatMap job.emitted) := by
  induction files generalizing kvs with
  | nil => simp
  | cons fileName rest ih =>
    obtain ⟨content, hdisk⟩ := Option.isSome_iff_exists.mp (hopened fileName List.mem_cons_self)
    simp only [List.foldlM_cons, hdisk, Option.map_some, Option.bind_eq_bind, Option.bind_some]
    rw [ih _ fun f hf => hopened f (List.mem_cons_of_mem _ hf), List.flatMap_cons,
      emitted_of_disk hdisk, List.append_assoc]

theorem intermediate_eq (hopened : ∀ fileName ∈ job.files,
    (job.disk (job.resolve fileName)).isSome) :
    job.intermediate = some (job.files.flatMap job.emitted) := by
  simpa [intermediate] using foldlM_emitted job.files [] hopened

theorem lines_mrsequential (hstd : job.Standard) (byKey : ByKey) {kvs : List KeyValue}
    (hkvs : job.intermediate = some kvs) :
    ∃ text whole, job.mrsequential byKey = some text ∧
      Grouping.EachKey KeyValue.key kvs whole ∧
      GoString.lines text = whole.flatMap fun k =>
        job.linesFor k (Grouping.valuesOf KeyValue.key KeyValue.value kvs k) := by
  obtain ⟨whole, hwhole, hblocks⟩ :=
    Grouping.blocks_of_sorted KeyValue.value _ (byKey.sorted kvs)
  refine ⟨_, whole, by rw [mrsequential, hkvs, Option.map_some],
    hwhole.of_perm (byKey.perm kvs), ?_⟩
  rw [hblocks, List.flatMap_map, lines_flatMap_fprintf]
  refine List.flatMap_congr fun k _ => ?_
  rw [linesFor, hstd.reducef_perm k _ _ (Grouping.perm_valuesOf (byKey.perm kvs) k)]

end Job

/-- With input files, the output files exist and have the lines of the sequential job. -/
theorem Job.perm_outputLines {Path : Type} [DecidableEq Path] {job : Job Path}
    (hstd : job.Standard) (hspares : job.SparesInputs) (hfiles : job.files ≠ [])
    {clock : Nat → Int} (byKey : ByKey) {w : World Path}
    (hreach : System.Reach (job.system clock) System.anyStep w)
    (hdone : w.coordinator.done = true) :
    ∃ text, job.mrsequential byKey = some text ∧
      (w.outputLines job).Perm (GoString.lines text) := by
  obtain ⟨hopened, hreduced⟩ := reduced_of_done hstd hspares hfiles hreach hdone
  obtain ⟨text, whole, htext, hwhole, hlines⟩ :=
    lines_mrsequential hstd byKey (intermediate_eq hopened)
  refine ⟨text, htext, ?_⟩
  -- every output file has its own collection of pairs and its own order of keys
  choose! kvs ks hkvs hks houtput using fun Y hY => (hreduced Y hY).lines
  have hwritten : w.outputLines job = (List.range job.nReduce.toNat).flatMap fun Y =>
      (ks Y).flatMap fun k =>
        job.linesFor k (Grouping.valuesOf KeyValue.key KeyValue.value (kvs Y) k) :=
    List.flatMap_congr fun Y hY => houtput Y (List.mem_range.mp hY)
  rw [hwritten, hlines]
  have hpos := hstd.nReduce_pos
  have hhash : ∀ k, ihash k % job.nReduce.toNat < job.nReduce.toNat :=
    fun k => Nat.mod_lt _ (by omega)
  refine Grouping.perm_flatMap_parts (fun k vs vs' hperm => ?_) hhash hkvs hks hwhole
  rw [linesFor, linesFor, hstd.reducef_perm k vs vs' hperm]

/-- Without input files, both jobs write nothing. -/
theorem Job.outputLines_of_nil {Path : Type} [DecidableEq Path] {job : Job Path}
    (hstd : job.Standard) (hspares : job.SparesInputs) (hfiles : job.files = [])
    (hfresh : ∀ Y < job.nReduce.toNat, job.disk (job.resolve (reduceOutput (Y : Nat))) = none)
    {clock : Nat → Int} (byKey : ByKey) {w : World Path}
    (hreach : System.Reach (job.system clock) System.anyStep w) :
    job.mrsequential byKey = some [] ∧ w.outputLines job = [] := by
  constructor
  · have hsort : byKey.sort [] = [] := (byKey.perm []).eq_nil
    simp [mrsequential, intermediate, hfiles, hsort, Grouping.blocks]
  · rw [World.outputLines, (sound_of_reach hstd hspares hreach).untouched hfiles,
      List.flatMap_eq_nil_iff]
    intro Y hY
    rw [hfresh Y (List.mem_range.mp hY)]
    rfl

/-- When a distributed job is done, its output files have the lines of the sequential job. -/
theorem distributed_eq_sequential {Path : Type} [DecidableEq Path] (job : Job Path)
    (hstd : job.Standard) (hspares : job.SparesInputs)
    (hfresh : job.files = [] →
      ∀ Y < job.nReduce.toNat, job.disk (job.resolve (reduceOutput (Y : Nat))) = none)
    (clock : Nat → Int) (byKey : ByKey) {w : World Path}
    (hreach : System.Reach (job.system clock) System.anyStep w)
    (hdone : w.coordinator.done = true) :
    ∃ text, job.mrsequential byKey = some text ∧
      (w.outputLines job).Perm (GoString.lines text) := by
  by_cases hfiles : job.files = []
  · obtain ⟨htext, houtput⟩ :=
      Job.outputLines_of_nil hstd hspares hfiles (hfresh hfiles) byKey hreach
    exact ⟨[], htext, by rw [houtput]; rfl⟩
  · exact Job.perm_outputLines hstd hspares hfiles byKey hreach hdone

/-! ### Small jobs -/

/-- The JSON text of a pair, on a line of its own. -/
def encodePair (kv : KeyValue) : GoString :=
  .lit "\x7b\"Key\":" ++ (kv.key.quote ++ (.lit ",\"Value\":" ++ (kv.value.quote ++ .lit "\x7d\n")))

/-- Reads the text of a pair. -/
def decodePair (s : GoString) : Option (KeyValue × GoString) := do
  let s ← s.dropPrefix? (GoString.lit "\x7b\"Key\":")
  let (key, s) ← GoString.unquote s
  let s ← s.dropPrefix? (GoString.lit ",\"Value\":")
  let (value, s) ← GoString.unquote s
  let s ← s.dropPrefix? (GoString.lit "\x7d\n")
  return (⟨key, value⟩, s)

/-- Reads pairs until there is none, or until `n` of them are read. -/
def decodePairsFrom : Nat → GoString → List KeyValue
  | 0, _ => []
  | n + 1, s =>
    match decodePair s with
    | none => []
    | some (kv, rest) => kv :: decodePairsFrom n rest

def decodePairs (s : GoString) : List KeyValue := decodePairsFrom s.length s

theorem dropPrefix?_lit (s t : GoString) : (s ++ t).dropPrefix? s = some t :=
  List.dropPrefix?_append_of_beq t (beq_self_eq_true s)

theorem decodePair_encodePair {kv : KeyValue} (hkey : kv.key.IsUtf8) (hvalue : kv.value.IsUtf8)
    (t : GoString) : decodePair (encodePair kv ++ t) = some (kv, t) := by
  simp only [decodePair, encodePair, List.append_assoc, dropPrefix?_lit, Option.bind_eq_bind,
    Option.bind_some, GoString.unquote_quote hkey, GoString.unquote_quote hvalue, Option.pure_def]

theorem decodePairsFrom_flatMap {kvs : List KeyValue} {n : Nat} (hn : kvs.length ≤ n)
    (h : ∀ kv ∈ kvs, kv.key.IsUtf8 ∧ kv.value.IsUtf8) :
    decodePairsFrom n (kvs.flatMap encodePair) = kvs := by
  induction kvs generalizing n with
  | nil => cases n <;> rfl
  | cons kv kvs ih =>
    obtain ⟨n, rfl⟩ := Nat.exists_eq_add_of_lt hn
    obtain ⟨hkey, hvalue⟩ := h kv List.mem_cons_self
    rw [List.flatMap_cons, decodePairsFrom, decodePair_encodePair hkey hvalue]
    exact congrArg _ (ih (by omega) fun kv' h' => h kv' (List.mem_cons_of_mem kv h'))

/-- Pairs of UTF-8 strings are read back from their texts. -/
theorem decodePairs_flatMap {kvs : List KeyValue}
    (h : ∀ kv ∈ kvs, kv.key.IsUtf8 ∧ kv.value.IsUtf8) :
    decodePairs (kvs.flatMap encodePair) = kvs := by
  refine decodePairsFrom_flatMap ?_ h
  rw [List.length_flatMap, ← List.length_map fun kv => (encodePair kv).length]
  refine List.length_le_sum_of_one_le _ fun n hn => ?_
  obtain ⟨kv, -, rfl⟩ := List.mem_map.mp hn
  simp [encodePair, GoString.quote, Nat.one_le_iff_ne_zero]

/-- What `mapf` emits is UTF-8. -/
def Job.EmitsUtf8 {Path : Type} (job : Job Path) : Prop :=
  ∀ fileName ∈ job.files, ∀ kv ∈ job.emitted fileName, kv.key.IsUtf8 ∧ kv.value.IsUtf8

instance {Path : Type} (job : Job Path) : Decidable job.EmitsUtf8 :=
  inferInstanceAs (Decidable (∀ fileName ∈ job.files, ∀ kv ∈ job.emitted fileName, _))

theorem Job.EmitsUtf8.decodePairs {Path : Type} {job : Job Path} (h : job.EmitsUtf8)
    {kvs : List KeyValue} (hkvs : ∀ kv ∈ kvs, ∃ fileName ∈ job.files, kv ∈ job.emitted fileName) :
    decodePairs (kvs.flatMap encodePair) = kvs := by
  refine decodePairs_flatMap fun kv hkv => ?_
  obtain ⟨fileName, hfile, hmem⟩ := hkvs kv hkv
  exact h fileName hfile kv hmem

/-- A name in the working directory, without leading `./`. -/
def plainPath : GoString → GoString
  | 46 :: 47 :: rest => plainPath rest
  | s => s

theorem plainPath_mr (s : GoString) : plainPath (.lit "mr-" ++ s) = .lit "mr-" ++ s := rfl

/-- Counts the files with the same content. -/
def contentJob (files : List GoString) (nReduce : Int) (disk : GoString → Option GoString) :
    Job GoString where
  files
  nReduce
  mapf fileName content := [⟨content, fileName⟩]
  reducef _ values := .itoa values.length
  encode := encodePair
  decode := decodePairs
  resolve := plainPath
  disk

theorem contentJob_standard {files : List GoString} {nReduce : Int}
    {disk : GoString → Option GoString} (hnodup : files.Nodup) (hpos : 1 ≤ nReduce)
    (hutf8 : (contentJob files nReduce disk).EmitsUtf8) :
    (contentJob files nReduce disk).Standard where
  nodup := hnodup
  nReduce_pos := hpos
  reducef_perm _ _ _ hperm := congrArg (fun n : Nat => GoString.itoa n) hperm.length_eq
  decode_encode _ := hutf8.decodePairs
  resolve_dot _ _ := rfl
  resolve_inj s t _ _ h := by
    have h : plainPath (.lit "mr-" ++ s) = plainPath (.lit "mr-" ++ t) := h
    rw [plainPath_mr, plainPath_mr] at h
    exact List.append_cancel_left h

/-- One worker of each kind does the whole job of two files and one reduce task. -/
def oneWorker : List Action :=
  [.mapRequest 0 atOneHour, .mapRead 0 (.insertion _), .mapRename 0, .mapFinish 0,
    .deliver 0 atOneHour,
    .mapRequest 0 atOneHour, .mapRead 0 (.insertion _), .mapRename 0, .mapFinish 0,
    .deliver 1 atOneHour, .deliver 0 atOneHour,
    .reduceRequest 0 atOneHour, .reduceRead 0, .reduceRead 0, .reduceRename 0 .sorted,
    .reduceFinish 0, .deliver 2 atOneHour]

/-- Two files with different contents. -/
def twoFiles (second : GoString) : Job GoString :=
  contentJob [.lit "a", second] 1 fun path =>
    if path = .lit "a" then some (.lit "x") else if path = second then some (.lit "y") else none

theorem oneWorker_finishes :
    (((twoFiles (.lit "b")).system fun _ => 0).run ((twoFiles (.lit "b")).system fun _ => 0).init
      oneWorker).map (fun w => w.coordinator.done) = some true := by
  decide +kernel

theorem distributed_eq_sequential_twoFiles :
    ∃ w : World GoString,
      w.coordinator.done = true ∧ ∃ text,
        (twoFiles (.lit "b")).mrsequential (.insertion _) = some text ∧
        (w.outputLines (twoFiles (.lit "b"))).Perm (GoString.lines text) := by
  obtain ⟨w, hrun, hdone⟩ := Option.map_eq_some_iff.mp oneWorker_finishes
  have hreach := System.reach_run .init (fun _ _ => trivial) oneWorker hrun
  exact ⟨w, hdone, distributed_eq_sequential (twoFiles (.lit "b"))
    (contentJob_standard (by decide) (by decide) (by decide +kernel)) (by decide +kernel)
    (fun hnil => nomatch hnil) (fun _ => 0) (.insertion _) hreach hdone⟩

theorem oneWorker_overwrites :
    (((twoFiles (.lit "mr-0-0")).system fun _ => 0).run
      ((twoFiles (.lit "mr-0-0")).system fun _ => 0).init oneWorker).map (fun w =>
        decide (w.coordinator.done = true ∧
          .lit "y 1" ∉ w.outputLines (twoFiles (.lit "mr-0-0")))) = some true := by
  decide +kernel

theorem mrsequential_twoFiles :
    ((twoFiles (.lit "mr-0-0")).mrsequential (.insertion _)).map (fun text =>
      decide (.lit "y 1" ∈ GoString.lines text)) = some true := by
  decide +kernel

/-- No input files, and an output file that is left from before. -/
def noFiles : Job GoString := contentJob [] 1 fun _ => some (.lit "old")

/-- An input file with the name of an intermediate file is overwritten before it is read, and
without input files the output files are whatever they were. -/
theorem outputs_differ :
    (∃ (job : Job GoString) (w : World GoString) (text : GoString),
      job.Standard ∧ job.files ≠ [] ∧
      System.Reach (job.system fun _ => 0) System.anyStep w ∧ w.coordinator.done = true ∧
      job.mrsequential (.insertion _) = some text ∧
      ¬ (w.outputLines job).Perm (GoString.lines text)) ∧
    ∃ (job : Job GoString) (w : World GoString) (text : GoString),
      job.Standard ∧ job.SparesInputs ∧
      System.Reach (job.system fun _ => 0) System.anyStep w ∧ w.coordinator.done = true ∧
      job.mrsequential (.insertion _) = some text ∧
      ¬ (w.outputLines job).Perm (GoString.lines text) := by
  constructor
  · obtain ⟨w, hrun, hw⟩ := Option.map_eq_some_iff.mp oneWorker_overwrites
    obtain ⟨text, htext, hmem⟩ := Option.map_eq_some_iff.mp mrsequential_twoFiles
    obtain ⟨hdone, hmissing⟩ := of_decide_eq_true hw
    have hstd : (twoFiles (.lit "mr-0-0")).Standard :=
      contentJob_standard (by decide) (by decide) (by decide +kernel)
    refine ⟨twoFiles (.lit "mr-0-0"), w, text, hstd, by decide,
      System.reach_run .init (fun _ _ => trivial) oneWorker hrun, hdone, htext, ?_⟩
    exact fun hperm => hmissing (hperm.mem_iff.mpr (of_decide_eq_true hmem))
  · have hstd : noFiles.Standard := contentJob_standard (by decide) (by decide) (by decide +kernel)
    exact ⟨noFiles, _, [], hstd, by decide, .init, by decide +kernel, by decide +kernel,
      by decide +kernel⟩

end RaftLabs.MapReduce
