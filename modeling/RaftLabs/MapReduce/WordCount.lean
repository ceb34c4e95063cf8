import RaftLabs.Lib.GoRunes
import RaftLabs.MapReduce.Equivalence

/-! The application `wc` (`mrapps/wc.go`): how often is each word in the input files?

A word is a longest run of letters; which runes are letters is a parameter. When the distributed
job is done, its output files together have one line for each word, whichever workers have done
the tasks and how often. -/
namespace RaftLabs.MapReduce
open Lib

/-! ### The plugin -/

namespace Wc

/-- `strings.FieldsFunc(contents, ff)`, where `ff` takes every rune that is no letter for a
separator. -/
def words (isLetter : Nat → Bool) (contents : GoString) : List GoString :=
  GoString.fieldsFunc (fun r => !isLetter r) contents

def map (isLetter : Nat → Bool) (_fileName contents : GoString) : List KeyValue :=
  (words isLetter contents).map fun w => ⟨w, .lit "1"⟩

def reduce (_key : GoString) (values : List GoString) : GoString := .itoa values.length

theorem newline_not_mem_word {isLetter : Nat → Bool}
    (hnewline : isLetter GoString.newline.val = false) {s word : GoString}
    (hword : word ∈ words isLetter s) : GoString.newline ∉ word :=
  GoString.not_mem_of_separates (by decide) (by simp [hnewline]) hword

end Wc

namespace Job
variable {Path : Type} {job : Job Path}

/-! ### One line for each key -/

theorem lines_singleton {line : GoString} (h : GoString.newline ∉ line) :
    GoString.lines (line ++ [GoString.newline]) = [line] := by
  induction line with
  | nil => rfl
  | cons b rest ih =>
    have hb : b ≠ GoString.newline := fun heq => h (heq ▸ List.mem_cons_self)
    rw [List.cons_append, GoString.lines, if_neg hb,
      ih fun hmem => h (List.mem_cons_of_mem b hmem)]

/-- When keys and results have no newline, a job that is done has one line for each key. -/
theorem perm_lines_of_done [DecidableEq Path] (hstd : job.Standard) (hspares : job.SparesInputs)
    (hfiles : job.files ≠ []) {clock : Nat → Int} {w : World Path}
    (hreach : System.Reach (job.system clock) System.anyStep w)
    (hdone : w.coordinator.done = true)
    (hkey : ∀ kv ∈ job.files.flatMap job.emitted, GoString.newline ∉ kv.key)
    (hvalue : ∀ k, GoString.newline ∉ job.reducef k
      (Grouping.valuesOf KeyValue.key KeyValue.value (job.files.flatMap job.emitted) k)) :
    (w.outputLines job).Perm (((job.files.flatMap job.emitted).map KeyValue.key).dedup.map fun k =>
      k ++ .lit " " ++ job.reducef k
        (Grouping.valuesOf KeyValue.key KeyValue.value (job.files.flatMap job.emitted) k)) := by
  obtain ⟨hopened, -⟩ := reduced_of_done hstd hspares hfiles hreach hdone
  obtain ⟨text, whole, htext, hwhole, hlines⟩ :=
    lines_mrsequential hstd (.insertion _) (intermediate_eq hopened)
  obtain ⟨text', htext', hperm⟩ := perm_outputLines hstd hspares hfiles (.insertion _) hreach hdone
  obtain rfl : text = text' := Option.some.inj (htext.symm.trans htext')
  refine hperm.trans ?_
  have hsame : whole.Perm ((job.files.flatMap job.emitted).map KeyValue.key).dedup := by
    refine (List.perm_ext_iff_of_nodup hwhole.nodup (List.nodup_dedup _)).mpr fun k => ?_
    rw [hwhole.mem_iff, List.mem_dedup, List.mem_map]
  have hone : ∀ k ∈ whole, job.linesFor k
      (Grouping.valuesOf KeyValue.key KeyValue.value (job.files.flatMap job.emitted) k) =
        [k ++ .lit " " ++ job.reducef k
          (Grouping.valuesOf KeyValue.key KeyValue.value (job.files.flatMap job.emitted) k)] := by
    intro k hk
    obtain ⟨kv, hkv, rfl⟩ := (hwhole.mem_iff k).mp hk
    refine lines_singleton ?_
    simp only [List.mem_append, not_or]
    exact ⟨⟨hkey kv hkv, by decide⟩, hvalue kv.key⟩
  rw [hlines, List.flatMap_congr hone, ← List.map_eq_flatMap]
  exact hsame.map _

/-! ### Counting words -/

/-- The job's plugin is `wc`. -/
structure RunsWc (job : Job Path) (isLetter : Nat → Bool) : Prop where
  mapf_eq : job.mapf = Wc.map isLetter
  reducef_eq : job.reducef = Wc.reduce

/-- The words of all input files, one after the other. -/
def allWords (job : Job Path) (isLetter : Nat → Bool) : List GoString :=
  job.files.flatMap fun fileName =>
    Wc.words isLetter ((job.disk (job.resolve fileName)).getD [])

section RunsWc
variable {isLetter : Nat → Bool} (hwc : job.RunsWc isLetter)
include hwc

/-- A file that cannot be opened emits nothing, as an empty one. -/
theorem emitted_wc (fileName : GoString) :
    job.emitted fileName =
      Wc.map isLetter fileName ((job.disk (job.resolve fileName)).getD []) := by
  rw [emitted, hwc.mapf_eq]
  cases job.disk (job.resolve fileName) <;> rfl

theorem flatMap_emitted_wc :
    job.files.flatMap job.emitted = (job.allWords isLetter).map fun w => ⟨w, .lit "1"⟩ := by
  rw [allWords, List.map_flatMap]
  exact List.flatMap_congr fun fileName _ => emitted_wc hwc fileName

theorem reducef_wc (word : GoString) :
    job.reducef word (Grouping.valuesOf KeyValue.key KeyValue.value
      (job.files.flatMap job.emitted) word) = .itoa ((job.allWords isLetter).count word) := by
  rw [hwc.reducef_eq, flatMap_emitted_wc hwc, Wc.reduce, Grouping.valuesOf, List.length_map,
    List.filter_map, List.length_map, List.count_eq_length_filter]
  congr 3
  exact List.filter_congr fun w _ => (beq_eq_decide w word).symm

/-- **The distributed `wc` counts the words.** In every run that is done, with any crashes and any
late or repeated messages, the output files together have one line for each word of the input
files: the word, and how often it is in them. -/
theorem wc_counts_words [DecidableEq Path] (hnewline : isLetter GoString.newline.val = false)
    (hstd : job.Standard) (hspares : job.SparesInputs) (hfiles : job.files ≠ [])
    {clock : Nat → Int} {w : World Path}
    (hreach : System.Reach (job.system clock) System.anyStep w)
    (hdone : w.coordinator.done = true) :
    (w.outputLines job).Perm ((job.allWords isLetter).dedup.map fun word =>
      word ++ .lit " " ++ .itoa ((job.allWords isLetter).count word)) := by
  have hperm := perm_lines_of_done hstd hspares hfiles hreach hdone ?_ ?_
  · simp only [reducef_wc hwc] at hperm
    rwa [flatMap_emitted_wc hwc, List.map_map,
      show (KeyValue.key ∘ fun w => ⟨w, .lit "1"⟩) = id from rfl, List.map_id] at hperm
  · intro kv hkv
    rw [flatMap_emitted_wc hwc] at hkv
    obtain ⟨word, hword, rfl⟩ := List.mem_map.mp hkv
    obtain ⟨fileName, -, hmem⟩ := List.mem_flatMap.mp hword
    exact Wc.newline_not_mem_word hnewline hmem
  · intro word
    rw [reducef_wc hwc]
    exact not_mem_itoaNat (by decide)

end RunsWc

/-- `wc` on two files, with the runes from `a` to `z` as letters. -/
def twoTexts : Job GoString :=
  { twoFiles (.lit "b") with
    mapf := Wc.map fun r => 97 ≤ r ∧ r ≤ 122
    reducef := Wc.reduce
    disk := fun path =>
      if path = .lit "a" then some (.lit "so, so it") else
        if path = .lit "b" then some (.lit "it is\nso") else none }

theorem twoTexts_emitsUtf8 : twoTexts.EmitsUtf8 := by
  decide +kernel

theorem twoTexts_standard : twoTexts.Standard where
  nodup := by decide
  nReduce_pos := by decide
  reducef_perm _ _ _ hperm := congrArg (fun n : Nat => GoString.itoa n) hperm.length_eq
  decode_encode _ := twoTexts_emitsUtf8.decodePairs
  resolve_dot _ _ := rfl
  resolve_inj :=
    have h : (twoFiles (.lit "b")).Standard :=
      contentJob_standard (by decide) (by decide) (by decide +kernel)
    h.resolve_inj

theorem oneWorker_counts :
    ((twoTexts.system fun _ => 0).run (twoTexts.system fun _ => 0).init
      oneWorker).map (fun w => w.coordinator.done) = some true := by
  decide +kernel

theorem wc_counts_words_twoTexts :
    ∃ w : World GoString, w.coordinator.done = true ∧
      (w.outputLines twoTexts).Perm [.lit "it 2", .lit "is 1", .lit "so 3"] := by
  obtain ⟨w, hrun, hdone⟩ := Option.map_eq_some_iff.mp oneWorker_counts
  have hreach := System.reach_run .init (fun _ _ => trivial) oneWorker hrun
  have hwc : twoTexts.RunsWc fun r => 97 ≤ r ∧ r ≤ 122 := ⟨rfl, rfl⟩
  have hcount := wc_counts_words hwc (by decide) twoTexts_standard (by decide +kernel)
    (fun hnil => nomatch hnil) hreach hdone
  exact ⟨w, hdone, hcount.trans (by decide +kernel)⟩

end Job
end RaftLabs.MapReduce
