import Mathlib.Data.List.Perm.Basic
import RaftLabs.Raft.Host

/-! A hosted service is replicated over one agreed log.

The agreed log is what some service has received, in the order of the indices; an entry that
`Start` made and no service has received is a proposal. A service that receives a command beyond
the agreed log appends it; any other command it receives is the one that the log has at its index,
because deliveries agree. Snapshots travel with the index they were taken at, so that a replica
which installs one or restarts from one continues with the command that follows it. -/
namespace RaftLabs.Raft
open Lib World
variable {n : Nat} {C σ ω : Type} {P : Service σ C ω} {h h' : Host n C σ}
  {a a' : AgreedLog (Fin n) C σ} {chosen rest : List (RaftLogEntry C)} {i : Fin n}

/-- The bytes of a state that was saved at `index`. -/
def Encoded (P : Service σ C ω) (snapshots : List σ) (index : Nat) (data : Bytes) : Prop :=
  ∃ s ∈ snapshots, P.position s = index ∧ data = P.encode s

theorem Encoded.mono {snapshots snapshots' : List σ} (hsub : snapshots ⊆ snapshots') {index : Nat}
    {data : Bytes} (h : Encoded P snapshots index data) : Encoded P snapshots' index data := by
  obtain ⟨s, hs, heq⟩ := h
  exact ⟨s, hsub hs, heq⟩

theorem not_encoded_nil (snapshots : List σ) (index : Nat) : ¬ Encoded P snapshots index [] := by
  rintro ⟨s, -, -, hnil⟩
  exact P.encode_ne_nil s hnil.symm

/-- Where a replica stands when Raft has delivered everything up to `delivered`: it has seen that
much, or a message is still in its inbox. -/
inductive Stands (P : Service σ C ω) (log : List C) (snapshots : List σ) (delivered : Nat) :
    Replica C σ → Prop where
  | idle {s : σ} (hposition : P.position s = delivered) :
      Stands P log snapshots delivered { state := s }
  | command {s : σ} {m : ApplyMsg C} {c : C} (hvalid : m.commandValid = true)
      (hcommand : m.command = some c) (hindex : m.commandIndex = P.position s + 1)
      (hdelivered : delivered = P.position s + 1) (hlog : log[P.position s]? = some c) :
      Stands P log snapshots delivered { state := s, inbox := some m }
  | snapshot {s : σ} {m : ApplyMsg C} (hsnap : IsSnapshot m)
      (hencoded : Encoded P snapshots m.snapshotIndex m.snapshot)
      (hdelivered : delivered = max (P.position s) m.snapshotIndex) :
      Stands P log snapshots delivered { state := s, inbox := some m }

namespace Stands
variable {log log' : List C} {snapshots snapshots' : List σ} {delivered : Nat} {r : Replica C σ}

theorem mono (hr : Stands P log snapshots delivered r) (hlog : log <+: log')
    (hsub : snapshots ⊆ snapshots') : Stands P log' snapshots' delivered r := by
  cases hr with
  | idle hposition => exact .idle hposition
  | command hvalid hcommand hindex hdelivered hget =>
    obtain ⟨more, rfl⟩ := hlog
    have hlt := (List.getElem?_eq_some_iff.mp hget).1
    exact .command hvalid hcommand hindex hdelivered (by rw [List.getElem?_append_left hlt, hget])
  | snapshot hsnap hencoded hdelivered => exact .snapshot hsnap (hencoded.mono hsub) hdelivered

theorem position_le (hr : Stands P log snapshots delivered r) : P.position r.state ≤ delivered := by
  cases hr with
  | idle hposition => exact Nat.le_of_eq hposition
  | @command s _ _ _ _ _ hdelivered =>
    show P.position s ≤ delivered
    omega
  | @snapshot s _ _ _ hdelivered =>
    show P.position s ≤ delivered
    omega

theorem position_eq (hr : Stands P log snapshots delivered r) (hinbox : r.inbox = none) :
    P.position r.state = delivered := by
  cases hr with
  | idle hposition => exact hposition
  | command => cases hinbox
  | snapshot => cases hinbox

/-- What is delivered is in the agreed log. -/
theorem delivered_le (hr : Stands P log snapshots delivered r)
    (hstate : P.position r.state ≤ log.length)
    (hsnapshots : ∀ s ∈ snapshots, P.position s ≤ log.length) : delivered ≤ log.length := by
  cases hr with
  | idle hposition => exact hposition ▸ hstate
  | command _ _ _ hdelivered hget =>
    have := (List.getElem?_eq_some_iff.mp hget).1
    omega
  | @snapshot s m _ hencoded hdelivered =>
    obtain ⟨s', hs', heq, -⟩ := hencoded
    have := hsnapshots s' hs'
    have hs : P.position s ≤ log.length := hstate
    omega

end Stands

/-- The host carries `a`: the entries of the agreed log are `chosen`, those of the proposals
`rest`. -/
structure Carries (P : Service σ C ω) (h : Host n C σ) (a : AgreedLog (Fin n) C σ)
    (chosen rest : List (RaftLogEntry C)) : Prop where
  reach : (cluster n C).Reach recovers h.raft
  sound : a.Sound P.toMachine
  takes : a.snapshots ≠ [] → P.takesSnapshots = true
  log : a.log = chosen.map (·.command)
  proposals : a.proposals = rest.map (·.command)
  states : ∀ i, a.states i = (h.replicas i).state
  supplied : Supplied (· ∈ chosen ++ rest) (Encoded P a.snapshots) h.raft
  indexed : Contiguous 0 chosen
  stands : ∀ i, Stands P a.log a.snapshots (h.raft.nodes i).delivered (h.replicas i)
  persisted : ∀ i s, a.persisted i = some s → (h.raft.nodes i).raft.persister.snapshot ≠ []

/-- Some service has received the entry. -/
def Seen (w : World n C) (e : RaftLogEntry C) : Prop := ∃ i, commandMsg e ∈ deliveries i w.trace

/-- Every command that some service has received is in the log at its index. -/
def Logged (w : World n C) (log : List C) : Prop :=
  ∀ i, ∀ m ∈ deliveries i w.trace, m.commandValid = true →
    ∃ c, m.command = some c ∧ 0 < m.commandIndex ∧ log[m.commandIndex - 1]? = some c

/-- The host is an implementation of `a`: it carries `a`, and the agreed log is what the services
have received. -/
structure Represents (P : Service σ C ω) (h : Host n C σ) (a : AgreedLog (Fin n) C σ)
    (chosen rest : List (RaftLogEntry C)) : Prop extends Carries P h a chosen rest where
  seen : ∀ e ∈ chosen, Seen h.raft e
  logged : Logged h.raft a.log

theorem represents_initial (P : Service σ C ω) :
    Represents P (Host.initial P : Host n C σ) (.initial P.toMachine) [] [] where
  reach := .init
  sound := .initial (AgreedLog.kept_reached _)
  takes hne := absurd rfl hne
  log := rfl
  proposals := rfl
  states _ := rfl
  supplied := supplied_initial
  indexed := contiguous_nil 0
  stands _ := .idle P.position_start
  persisted _ _ hp := nomatch hp
  seen _ he := nomatch he
  logged _ _ hm := nomatch hm

namespace Carries

theorem anyReach (hc : Carries P h a chosen rest) : (cluster n C).Reach System.anyStep h.raft :=
  hc.reach.mono fun _ _ _ _ _ => trivial

theorem delivered_le (hc : Carries P h a chosen rest) (i : Fin n) :
    (h.raft.nodes i).delivered ≤ chosen.length := by
  have hle := (hc.stands i).delivered_le (hc.states i ▸ (hc.sound.states i).2)
    fun s hs => (hc.sound.snapshots s hs).2
  rwa [hc.log, List.length_map] at hle

/-- Bytes that were saved decode. -/
theorem decode (hc : Carries P h a chosen rest) {index : Nat} {data : Bytes}
    (hencoded : Encoded P a.snapshots index data) : ∃ s ∈ a.snapshots, P.position s = index ∧
      data = P.encode s ∧ (if data = [] then none else P.decode data) = some s := by
  obtain ⟨s, hs, hposition, rfl⟩ := hencoded
  refine ⟨s, hs, hposition, rfl, ?_⟩
  rw [if_neg (P.encode_ne_nil s)]
  exact P.decode_encode (hc.takes (List.ne_nil_of_mem hs)) s (hc.sound.snapshots s hs).1

/-! ### Steps that deliver nothing -/

theorem quiet (hc : Carries P h a chosen rest) {act : Action n C} {raft' : World n C}
    (hsend : ∀ i, act ≠ .applySend i) (hrestart : ∀ i, act ≠ .restart i)
    (hok : recovers h.raft act)
    (hbrings : Brings (· ∈ chosen ++ rest) (Encoded P a.snapshots) h.raft act)
    (hstep : (cluster n C).step h.raft act = some raft') :
    Carries P { h with raft := raft' } a chosen rest := by
  have hserver : ∀ i, (raft'.nodes i).delivered = (h.raft.nodes i).delivered ∧
      ((raft'.nodes i).raft.persister.snapshot = [] →
        (h.raft.nodes i).raft.persister.snapshot = []) := by
    intro i
    obtain ⟨msgs, hs, -⟩ := serverStep_of_step hstep i
    exact ⟨(hs.quiet (hsend i) (hrestart i)).1,
      hs.bytes hbrings hc.supplied.requests (not_encoded_nil _)⟩
  constructor
  case reach => exact hc.reach.step hok hstep
  case sound => exact hc.sound
  case takes => exact hc.takes
  case log => exact hc.log
  case proposals => exact hc.proposals
  case states => exact hc.states
  case supplied => exact hc.supplied.step (allPositioned hc.anyReach) hbrings hstep
  case indexed => exact hc.indexed
  case stands =>
    intro i
    rw [(hserver i).1]
    exact hc.stands i
  case persisted =>
    intro i s hs hnil
    exact hc.persisted i s hs ((hserver i).2 hnil)

/-- An entry that `Start` makes is a proposal. -/
theorem propose (hc : Carries P h a chosen rest) (e : RaftLogEntry C) :
    Carries P h (a.propose e.command) chosen (rest ++ [e]) where
  reach := hc.reach
  sound := ⟨hc.sound.states, hc.sound.snapshots, hc.sound.persisted⟩
  takes := hc.takes
  log := hc.log
  proposals := by
    rw [List.map_append, ← hc.proposals]
    rfl
  states := hc.states
  supplied := by
    refine hc.supplied.mono (fun e he => ?_) fun _ _ hs => hs
    rw [← List.append_assoc]
    exact List.mem_append_left _ he
  indexed := hc.indexed
  stands := hc.stands
  persisted := hc.persisted

/-- The entry of a proposal moves to the end of the agreed log. -/
theorem append (hc : Carries P h a chosen rest) {j : Nat} {e : RaftLogEntry C}
    (hj : rest[j]? = some e) (hindex : e.index = chosen.length + 1) :
    Carries P h (a.append j e.command) (chosen ++ [e]) (rest.eraseIdx j) where
  reach := hc.reach
  sound := hc.sound.append (AgreedLog.kept_reached _) j _
  takes := hc.takes
  log := by
    rw [List.map_append, ← hc.log]
    rfl
  proposals := by
    rw [← List.eraseIdx_map, ← hc.proposals]
    rfl
  states := hc.states
  supplied := by
    refine hc.supplied.mono (fun e' he' => ?_) fun _ _ hs => hs
    obtain ⟨hlt, hget⟩ := List.getElem?_eq_some_iff.mp hj
    have hperm : (chosen ++ [e] ++ rest.eraseIdx j).Perm (chosen ++ rest) := by
      rw [List.append_assoc, List.singleton_append]
      refine List.Perm.append_left _ ?_
      rw [← hget]
      exact List.getElem_cons_eraseIdx_perm hlt
    exact hperm.mem_iff.mpr he'
  indexed := by
    refine hc.indexed.append ?_
    rw [contiguous_cons]
    exact ⟨by omega, contiguous_nil _⟩
  stands j := (hc.stands j).mono ⟨[e.command], rfl⟩ fun _ hs => hs
  persisted := hc.persisted

/-! ### The apply channel -/

/-- Raft delivers a message, which waits in the inbox. A command has its place in the agreed
log. -/
theorem deliver (hc : Carries P h a chosen rest) {m : ApplyMsg C} {more : List (ApplyMsg C)}
    {last : Option Nat} (hup : (h.raft.nodes i).up = true)
    (happlying : (h.raft.nodes i).applying = some (m :: more, last))
    (hinbox : (h.replicas i).inbox = none)
    (hcommand : ∀ c, m.commandValid = true → m.command = some c →
      a.log[m.commandIndex - 1]? = some c) :
    Carries P ({ h with raft := h.raft.applySend i m more last }.setReplica i
      { h.replicas i with inbox := some m }) a chosen rest := by
  have hstep : (cluster n C).step h.raft (.applySend i) =
      some (h.raft.applySend i m more last) := by
    simp only [cluster, step, hup, happlying]
  have hreceive := ((runs_reach hc.anyReach i).applySend happlying).1
  have hmsg : SuppliedMsg (· ∈ chosen ++ rest) (Encoded P a.snapshots) m := by
    refine (hc.supplied.servers i).pending m ?_
    rw [Node.pending, happlying]
    exact List.mem_cons_self
  have hposition := (hc.stands i).position_eq hinbox
  have hbrings : Brings (· ∈ chosen ++ rest) (Encoded P a.snapshots) h.raft (.applySend i) := by
    constructor
    case start =>
      intro _ _ heq
      cases heq
    case snapshot =>
      intro _ _ _ heq
      cases heq
  constructor
  case reach => exact hc.reach.step (recovers_applySend _ i) hstep
  case sound => exact hc.sound
  case takes => exact hc.takes
  case log => exact hc.log
  case proposals => exact hc.proposals
  case states =>
    intro j
    rw [hc.states j]
    by_cases hj : j = i
    · subst hj
      simp [Host.setReplica]
    · simp [Host.setReplica, hj]
  case supplied => exact hc.supplied.step (allPositioned hc.anyReach) hbrings hstep
  case indexed => exact hc.indexed
  case stands =>
    intro j
    by_cases hj : j = i
    · subst hj
      simp only [Host.setReplica, Function.update_self, World.applySend, observe_nodes, setNode_self]
      rcases hmsg with ⟨e, -, rfl⟩ | ⟨hsnap, hencoded⟩
      · rcases receive_cases hreceive with ⟨-, hindex, hnext⟩ | ⟨hfalse, -⟩
        · have hidx : e.index = (h.raft.nodes j).delivered + 1 := hindex
          refine .command rfl rfl ?_ ?_ ?_
          · rw [hposition]
            exact hidx
          · rw [hposition]
            exact hnext
          · rw [hposition, ← hcommand _ rfl rfl]
            show _ = a.log[e.index - 1]?
            rw [hidx, Nat.add_sub_cancel]
        · cases hfalse
      · refine .snapshot hsnap hencoded ?_
        rw [hposition, hsnap.index, Nat.zero_max]
    · simp only [Host.setReplica, Function.update_of_ne hj, World.applySend, observe_nodes,
        setNode_ne _ _ hj]
      exact hc.stands j
  case persisted =>
    intro j s hs
    have hraft : ((h.raft.applySend i m more last).nodes j).raft = (h.raft.nodes j).raft := by
      by_cases hj : j = i
      · subst hj
        simp [World.applySend]
      · simp [World.applySend, setNode_ne _ _ hj]
    show ((h.raft.applySend i m more last).nodes j).raft.persister.snapshot ≠ []
    rw [hraft]
    exact hc.persisted j s hs

/-- A replica looks at its message and stands where Raft stands. -/
theorem setState (hc : Carries P h a chosen rest) {s : σ} (hs : AgreedLog.Reached P.toMachine a.log s)
    (hposition : P.position s = (h.raft.nodes i).delivered) :
    Carries P (h.setReplica i { state := s }) (a.setState i s) chosen rest where
  reach := hc.reach
  sound := hc.sound.setState i hs
  takes := hc.takes
  log := hc.log
  proposals := hc.proposals
  states j := by
    by_cases hj : j = i
    · subst hj
      simp [Host.setReplica, AgreedLog.setState]
    · simpa [Host.setReplica, AgreedLog.setState, hj] using hc.states j
  supplied := hc.supplied
  indexed := hc.indexed
  stands j := by
    by_cases hj : j = i
    · subst hj
      simpa [Host.setReplica] using Stands.idle hposition
    · simpa [Host.setReplica, AgreedLog.setState, hj] using hc.stands j
  persisted := hc.persisted

/-! ### Snapshots -/

/-- A state is encoded. -/
theorem save (hc : Carries P h a chosen rest) (htakes : P.takesSnapshots = true) {s : σ}
    (hs : AgreedLog.Reached P.toMachine a.log s) :
    Carries P h { a with snapshots := a.snapshots ++ [s] } chosen rest where
  reach := hc.reach
  sound := hc.sound.save hs
  takes _ := htakes
  log := hc.log
  proposals := hc.proposals
  states := hc.states
  supplied := hc.supplied.mono (fun _ he => he)
    fun _ _ henc => henc.mono (List.subset_append_left _ _)
  indexed := hc.indexed
  stands j := (hc.stands j).mono (List.prefix_refl _) (List.subset_append_left _ _)
  persisted := hc.persisted

/-- A saved state is on disk. -/
theorem persist (hc : Carries P h a chosen rest) {s : σ} (hs : s ∈ a.snapshots)
    (hdisk : (h.raft.nodes i).raft.persister.snapshot ≠ []) :
    Carries P h { a with persisted := Function.update a.persisted i (some s) } chosen rest where
  reach := hc.reach
  sound := hc.sound.persist i hs
  takes := hc.takes
  log := hc.log
  proposals := hc.proposals
  states := hc.states
  supplied := hc.supplied
  indexed := hc.indexed
  stands := hc.stands
  persisted := (Function.forall_update_iff a.persisted
      fun j o => ∀ s, o = some s → (h.raft.nodes j).raft.persister.snapshot ≠ []).mpr
    ⟨fun _ _ => hdisk, fun j _ => hc.persisted j⟩

/-- The service hands a saved state to Raft, which has one on disk afterwards. -/
theorem takeSnapshot (hc : Carries P h a chosen rest) (hup : (h.raft.nodes i).up = true) {s : σ}
    (hs : s ∈ a.snapshots) (hle : P.position s ≤ (h.raft.nodes i).delivered) :
    Carries P { h with raft := h.raft.takeSnapshot i (P.position s) (P.encode s) } a chosen rest ∧
      ((h.raft.takeSnapshot i (P.position s) (P.encode s)).nodes i).raft.persister.snapshot ≠ [] ∧
      (∀ j, deliveries j (h.raft.takeSnapshot i (P.position s) (P.encode s)).trace =
        deliveries j h.raft.trace) ∧
      ((h.raft.takeSnapshot i (P.position s) (P.encode s)).nodes i).delivered =
        (h.raft.nodes i).delivered := by
  have hstep := step_takeSnapshot hup hle (P.encode s)
  have hbrings : Brings (· ∈ chosen ++ rest) (Encoded P a.snapshots) h.raft
      (.snapshot i (P.position s) (P.encode s)) := by
    constructor
    case start =>
      intro _ _ heq
      cases heq
    case snapshot =>
      intro _ _ _ heq
      cases heq
      exact ⟨s, hs, rfl, rfl⟩
  have hserver : ∀ j, ((h.raft.takeSnapshot i (P.position s) (P.encode s)).nodes j).delivered =
      (h.raft.nodes j).delivered ∧
      deliveries j (h.raft.takeSnapshot i (P.position s) (P.encode s)).trace =
        deliveries j h.raft.trace := by
    intro j
    obtain ⟨msgs, hserver, htrace⟩ := serverStep_of_step hstep j
    obtain ⟨hdelivered, rfl⟩ := hserver.quiet (by simp) (by simp)
    exact ⟨hdelivered, by rw [htrace, List.append_nil]⟩
  exact ⟨hc.quiet (by simp) (by simp) (recovers_snapshot _ i _ _) hbrings hstep,
    takeSnapshot_bytes (hc.supplied.servers i).raft.disk (not_encoded_nil _) (P.encode_ne_nil s),
    fun j => (hserver j).2, (hserver i).1⟩

/-- A server starts over, and its service in the state that is on disk. -/
theorem boot (hc : Carries P h a chosen rest) (hok : recovers h.raft (.restart i)) {s : σ}
    (hs : AgreedLog.Reached P.toMachine a.log s)
    (hposition : P.position s = (h.raft.nodes i).raft.savedSnapshotIndex) :
    Carries P ({ h with raft := h.raft.restart i }.setReplica i { state := s }) (a.setState i s)
      chosen rest := by
  have hstep : (cluster n C).step h.raft (.restart i) = some (h.raft.restart i) := rfl
  have hbrings : Brings (· ∈ chosen ++ rest) (Encoded P a.snapshots) h.raft (.restart i) := by
    constructor
    case start =>
      intro _ _ heq
      cases heq
    case snapshot =>
      intro _ _ _ heq
      cases heq
  constructor
  case reach => exact hc.reach.step hok hstep
  case sound => exact hc.sound.setState i hs
  case takes => exact hc.takes
  case log => exact hc.log
  case proposals => exact hc.proposals
  case states =>
    intro j
    by_cases hj : j = i
    · subst hj
      simp [Host.setReplica, AgreedLog.setState]
    · simpa [Host.setReplica, AgreedLog.setState, hj] using hc.states j
  case supplied => exact hc.supplied.step (allPositioned hc.anyReach) hbrings hstep
  case indexed => exact hc.indexed
  case stands =>
    intro j
    by_cases hj : j = i
    · subst hj
      simp only [Host.setReplica, Function.update_self, World.restart, setNode_self, Node.boot,
        make_eq]
      exact .idle hposition
    · simp only [Host.setReplica, Function.update_of_ne hj, World.restart, setNode_ne _ _ hj]
      exact hc.stands j
  case persisted =>
    intro j s' hs'
    by_cases hj : j = i
    · subst hj
      simp only [Host.setReplica, World.restart, setNode_self, Node.boot, make_eq]
      exact hc.persisted j s' hs'
    · simp only [Host.setReplica, World.restart, setNode_ne _ _ hj]
      exact hc.persisted j s' hs'

end Carries

/-! ### Every step of a host -/

theorem Seen.of_deliveries {w w' : World n C} (heq : ∀ i, deliveries i w'.trace = deliveries i w.trace)
    {e : RaftLogEntry C} (hseen : Seen w e) : Seen w' e := by
  obtain ⟨i, hi⟩ := hseen
  exact ⟨i, (heq i).symm ▸ hi⟩

theorem Seen.applySend {w : World n C} {m : ApplyMsg C} {more : List (ApplyMsg C)}
    {last : Option Nat} {e : RaftLogEntry C} (hseen : Seen w e) :
    Seen (w.applySend i m more last) e := by
  obtain ⟨j, hj⟩ := hseen
  refine ⟨j, ?_⟩
  rw [mem_deliveries] at hj ⊢
  exact List.mem_append_left _ hj

theorem Logged.of_deliveries {w w' : World n C} {log : List C}
    (heq : ∀ i, deliveries i w'.trace = deliveries i w.trace) (hlogged : Logged w log) :
    Logged w' log := by
  intro i m hm
  rw [heq i] at hm
  exact hlogged i m hm

theorem Logged.mono {w : World n C} {log log' : List C} (hlogged : Logged w log)
    (hlog : log <+: log') : Logged w log' := by
  intro i m hm hvalid
  obtain ⟨c, hc, hpos, hget⟩ := hlogged i m hm hvalid
  obtain ⟨more, rfl⟩ := hlog
  have hlt := (List.getElem?_eq_some_iff.mp hget).1
  exact ⟨c, hc, hpos, by rw [List.getElem?_append_left hlt, hget]⟩

theorem Logged.applySend {w : World n C} {log : List C} {m : ApplyMsg C}
    {more : List (ApplyMsg C)} {last : Option Nat} (hlogged : Logged w log)
    (hm : m.commandValid = true →
      ∃ c, m.command = some c ∧ 0 < m.commandIndex ∧ log[m.commandIndex - 1]? = some c) :
    Logged (w.applySend i m more last) log := by
  intro j m' hm'
  rw [mem_deliveries] at hm'
  rcases List.mem_append.mp hm' with hold | hnew
  · exact hlogged j m' (mem_deliveries.mpr hold)
  · cases List.mem_singleton.mp hnew
    exact hm

theorem mem_deliveries_applySend (w : World n C) (i : Fin n) (m : ApplyMsg C)
    (more : List (ApplyMsg C)) (last : Option Nat) :
    m ∈ deliveries i (w.applySend i m more last).trace := by
  rw [mem_deliveries]
  exact List.mem_append_right _ (List.mem_singleton.mpr rfl)

theorem readSnapshot_eq {s s' : σ} {data : Bytes}
    (hdecode : (if data = [] then none else P.decode data) = some s') :
    (h.setReplica i { state := s }).readSnapshot P i data =
      { h with raft := h.raft.takeSnapshot i (P.position s') data }.setReplica i
        { state := s' } := by
  simp [Host.readSnapshot, Host.setReplica, hdecode]

namespace Represents

/-- A step of Raft that delivers nothing. -/
theorem quiet (hr : Represents P h a chosen rest) {act : Action n C} {raft' : World n C}
    (hsend : ∀ i, act ≠ .applySend i) (hrestart : ∀ i, act ≠ .restart i)
    (hok : recovers h.raft act)
    (hbrings : Brings (· ∈ chosen ++ rest) (Encoded P a.snapshots) h.raft act)
    (hstep : (cluster n C).step h.raft act = some raft') :
    Represents P { h with raft := raft' } a chosen rest := by
  have hdeliveries : ∀ i, deliveries i raft'.trace = deliveries i h.raft.trace := by
    intro i
    obtain ⟨msgs, hs, htrace⟩ := serverStep_of_step hstep i
    obtain ⟨-, rfl⟩ := hs.quiet (hsend i) (hrestart i)
    rw [htrace, List.append_nil]
  exact ⟨hr.toCarries.quiet hsend hrestart hok hbrings hstep,
    fun e he => (hr.seen e he).of_deliveries hdeliveries, hr.logged.of_deliveries hdeliveries⟩

/-- A goroutine of Raft. -/
theorem internal (hr : Represents P h a chosen rest) {act : Action n C} {raft' : World n C}
    (hinternal : Host.internal act = true) (hok : recovers h.raft act)
    (hstep : (cluster n C).step h.raft act = some raft') :
    Represents P { h with raft := raft' } a chosen rest := by
  have hne : ∀ b, Host.internal b = false → act ≠ b := by
    rintro b hb rfl
    rw [hinternal] at hb
    cases hb
  exact hr.quiet (fun i => hne _ rfl) (fun i => hne _ rfl) hok
    ⟨fun _ _ heq => absurd heq (hne _ rfl), fun _ _ _ heq => absurd heq (hne _ rfl)⟩ hstep

theorem start (hr : Represents P h a chosen rest) (hup : (h.raft.nodes i).up = true) {c : C}
    (hentry : (h.raft.nodes i).raft.state = .leader →
      startEntry (h.raft.nodes i).raft c ∈ chosen ++ rest) :
    Represents P (h.submit i c).1 a chosen rest := by
  have hstep : (cluster n C).step h.raft (.start i c) =
      some (h.raft.setRaft i ((h.raft.nodes i).raft.start c).1) := by
    simp only [cluster, step, hup, if_true]
  refine hr.quiet (by simp) (by simp) (recovers_start _ i c) ?_ hstep
  constructor
  case start =>
    intro j command heq hleader
    cases heq
    exact hentry hleader
  case snapshot =>
    intro _ _ _ heq
    cases heq

/-- `Start` at a server that is up: the command is proposed, or nothing happens. -/
theorem submit (hr : Represents P h a chosen rest) (hup : (h.raft.nodes i).up = true) (c : C) :
    ((h.submit i c).2.isSome = true ∧
      ∃ rest', Represents P (h.submit i c).1 (a.propose c) chosen rest') ∨
    ((h.submit i c).2 = none ∧ Represents P (h.submit i c).1 a chosen rest) := by
  by_cases hleader : (h.raft.nodes i).raft.state = .leader
  · left
    refine ⟨by simp [Host.submit, Raft.start, hleader],
      rest ++ [startEntry (h.raft.nodes i).raft c], ?_⟩
    have hpropose : Represents P h (a.propose c) chosen
        (rest ++ [startEntry (h.raft.nodes i).raft c]) :=
      ⟨hr.toCarries.propose (startEntry (h.raft.nodes i).raft c), hr.seen, hr.logged⟩
    exact hpropose.start hup fun _ => by simp
  · right
    exact ⟨by simp [Host.submit, Raft.start, hleader],
      hr.start hup fun hl => absurd hl hleader⟩

/-- The place of a command in the agreed log: the log has it, or it is the next proposal to be
appended. -/
theorem place (hr : Represents P h a chosen rest) {e : RaftLogEntry C}
    {more : List (ApplyMsg C)} {last : Option Nat} (hup : (h.raft.nodes i).up = true)
    (happlying : (h.raft.nodes i).applying = some (commandMsg e :: more, last))
    (he : e ∈ chosen ++ rest) :
    (0 < e.index ∧ a.log[e.index - 1]? = some e.command) ∨
    (e.index = chosen.length + 1 ∧ ∃ j : Nat, rest[j]? = some e) := by
  have hreceive := ((runs_reach hr.anyReach i).applySend happlying).1
  have hindex : e.index = (h.raft.nodes i).delivered + 1 := by
    rcases receive_cases hreceive with ⟨-, hindex, -⟩ | ⟨hfalse, -⟩
    · exact hindex
    · cases hfalse
  have hle := hr.delivered_le i
  by_cases hold : e.index ≤ chosen.length
  · refine .inl ⟨by omega, ?_⟩
    have hlt : e.index - 1 < chosen.length := by omega
    obtain ⟨e', he'⟩ : ∃ e', chosen[e.index - 1]? = some e' :=
      ⟨_, List.getElem?_eq_getElem hlt⟩
    have hindex' := hr.indexed _ e' he'
    -- some service has received the command of the agreed log, and deliveries agree
    have hstep : (cluster n C).step h.raft (.applySend i) =
        some (h.raft.applySend i (commandMsg e) more last) := by
      simp only [cluster, step, hup, happlying]
    have hseen : Seen (h.raft.applySend i (commandMsg e) more last) e' :=
      (hr.seen e' (List.mem_of_getElem? he')).applySend
    obtain ⟨j, hj⟩ := hseen
    have hsame := commands_agree (hr.reach.step (recovers_applySend _ i) hstep)
      (mem_deliveries_applySend _ i _ _ _) hj (by omega)
    rw [hr.log, List.getElem?_map, he', Option.map_some, hsame]
  · refine .inr ⟨by omega, ?_⟩
    rcases List.mem_append.mp he with hc | hrest
    · obtain ⟨p, hp⟩ := List.getElem?_of_mem hc
      have := hr.indexed p e hp
      have := (List.getElem?_eq_some_iff.mp hp).1
      omega
    · exact List.getElem?_of_mem hrest

/-- The service takes a message from its channel. When no service has received the command before,
it is appended to the agreed log. -/
theorem receive (hr : Represents P h a chosen rest) (hreceive : h.receive i = some h') :
    ∃ a' chosen' rest', (a' = a ∨ ∃ j, a.step P.toMachine (.append j) = some a') ∧
      Represents P h' a' chosen' rest' := by
  unfold Host.receive at hreceive
  split at hreceive
  · rename_i m more last hup happlying hinbox
    cases hreceive
    have hmsg : SuppliedMsg (· ∈ chosen ++ rest) (Encoded P a.snapshots) m := by
      refine (hr.supplied.servers i).pending m ?_
      rw [Node.pending, happlying]
      exact List.mem_cons_self
    rcases hmsg with ⟨e, he, rfl⟩ | ⟨hsnap, -⟩
    · rcases hr.place hup happlying he with ⟨hpos, hlog⟩ | ⟨hindex, j, hj⟩
      · refine ⟨a, chosen, rest, .inl rfl, hr.toCarries.deliver hup happlying hinbox ?_,
          fun e' he' => (hr.seen e' he').applySend,
          hr.logged.applySend fun _ => ⟨e.command, rfl, hpos, hlog⟩⟩
        intro c _ hc
        cases hc
        exact hlog
      · have hpos : 0 < e.index := by omega
        have hlog : (a.append j e.command).log[e.index - 1]? = some e.command := by
          show (a.log ++ [e.command])[e.index - 1]? = _
          rw [hindex, Nat.add_sub_cancel, hr.log,
            List.getElem?_append_right (by rw [List.length_map]), List.length_map, Nat.sub_self]
          rfl
        refine ⟨a.append j e.command, chosen ++ [e], rest.eraseIdx j, .inr ⟨j, ?_⟩,
          (hr.toCarries.append hj hindex).deliver hup happlying hinbox ?_, fun e' he' => ?_,
          (hr.logged.mono ⟨[e.command], rfl⟩).applySend fun _ =>
            ⟨e.command, rfl, hpos, hlog⟩⟩
        · show (a.proposals[j]?).map (a.append j) = _
          rw [hr.proposals, List.getElem?_map, hj]
          rfl
        · intro c _ hc
          cases hc
          exact hlog
        · rcases List.mem_append.mp he' with hold | hnew
          · exact (hr.seen e' hold).applySend
          · rw [List.mem_singleton.mp hnew]
            exact ⟨i, mem_deliveries_applySend _ i _ _ _⟩
    · have hnot : ¬ m.commandValid = true := by simp [hsnap.command]
      exact ⟨a, chosen, rest, .inl rfl,
        hr.toCarries.deliver hup happlying hinbox fun _ hvalid => absurd hvalid hnot,
        fun e' he' => (hr.seen e' he').applySend,
        hr.logged.applySend fun hvalid => absurd hvalid hnot⟩
  · cases hreceive

/-- The service continues with a state that some service has saved. -/
theorem install (hr : Represents P h a chosen rest) (hup : (h.raft.nodes i).up = true) {s : σ}
    (hs : s ∈ a.snapshots) (hposition : P.position s = (h.raft.nodes i).delivered)
    (hlt : P.position (a.states i) < P.position s) :
    Represents P ({ h with raft := h.raft.takeSnapshot i (P.position s) (P.encode s) }.setReplica i
      { state := s }) (a.install P.toMachine i s) chosen rest := by
  obtain ⟨hcarries, hbytes, htrace, hdelivered⟩ :=
    hr.toCarries.takeSnapshot hup hs (Nat.le_of_eq hposition)
  have hstate := hcarries.setState (hr.sound.snapshots s hs) (hposition.trans hdelivered.symm)
  have hinstall : a.install P.toMachine i s =
      { a.setState i s with persisted := Function.update a.persisted i (some s) } := by
    simp [AgreedLog.install, AgreedLog.setState, hlt]
  rw [hinstall]
  exact ⟨hstate.persist hs hbytes, fun e he => (hr.seen e he).of_deliveries htrace,
    hr.logged.of_deliveries htrace⟩

/-- The service looks at the message it has received. -/
theorem process (hr : Represents P h a chosen rest) {o : ω} {m : ApplyMsg C}
    (hup : (h.raft.nodes i).up = true) (hinbox : (h.replicas i).inbox = some m)
    (hprocess : h.process P i o m = some h') :
    ∃ a', (a' = a ∨ a.step P.toMachine (.apply i o) = some a' ∨
      ∃ j, a.step P.toMachine (.install i j) = some a') ∧ Represents P h' a' chosen rest := by
  have hstands := hr.stands i
  have hstate := hr.states i
  unfold Host.process at hprocess
  generalize hreplica : h.replicas i = r at hstands hstate hinbox hprocess
  cases hstands with
  | idle => cases hinbox
  | @command s m' c hvalid hcommand hindex hdelivered hlog =>
    cases hinbox
    simp only [hvalid, if_true, hcommand, Option.bind_some, Option.map_eq_some_iff, hindex]
      at hprocess
    obtain ⟨s', happly, rfl⟩ := hprocess
    have hstate' : a.states i = s := hstate
    obtain ⟨hvalid', hposition⟩ := P.apply_next (hstate' ▸ (hr.sound.states i).1) happly
    refine ⟨a.setState i s', .inr (.inl ?_), hr.toCarries.setState ⟨hvalid', ?_⟩ ?_, hr.seen,
      hr.logged⟩
    · show (a.log[P.position (a.states i)]?).bind _ = _
      rw [hstate', hlog, Option.bind_some, happly]
      rfl
    · have := (List.getElem?_eq_some_iff.mp hlog).1
      omega
    · omega
  | @snapshot s m' hsnap hencoded hdelivered =>
    cases hinbox
    have hstate' : a.states i = s := hstate
    have hreached : AgreedLog.Reached P.toMachine a.log s := hstate' ▸ hr.sound.states i
    simp only [hsnap.command, Bool.false_eq_true, if_false, Option.some.injEq] at hprocess
    subst hprocess
    split
    · rename_i hlt
      obtain ⟨s', hs', hposition, hdata, hdecode⟩ := hr.decode hencoded
      obtain ⟨j, hj⟩ := List.getElem?_of_mem hs'
      refine ⟨a.install P.toMachine i s', .inr (.inr ⟨j, ?_⟩), ?_⟩
      · show (a.snapshots[j]?).map (a.install P.toMachine i) = _
        rw [hj]
        rfl
      · rw [readSnapshot_eq hdecode, hdata]
        exact hr.install hup hs' (by omega) (by rw [hstate']; omega)
    · rename_i hge
      have hsame : a.setState i s = a := by
        rw [AgreedLog.setState, ← hstate', Function.update_eq_self]
      have hcarries := hr.toCarries.setState (i := i) hreached (by omega)
      rw [hsame] at hcarries
      exact ⟨a, .inl rfl, hcarries, hr.seen, hr.logged⟩

/-- The service takes a snapshot of its state. -/
theorem snapshot (hr : Represents P h a chosen rest) (hup : (h.raft.nodes i).up = true)
    (htakes : P.takesSnapshots = true) :
    Represents P (h.snapshot P i) (a.snapshot i) chosen rest := by
  have hsaved := hr.toCarries.save htakes (hr.sound.states i)
  obtain ⟨hcarries, hbytes, htrace, -⟩ := hsaved.takeSnapshot (s := a.states i) hup (by simp)
    (by rw [hr.states i]; exact (hr.stands i).position_le)
  have hsnapshot : h.snapshot P i = { h with
      raft := h.raft.takeSnapshot i (P.position (a.states i)) (P.encode (a.states i)) } := by
    rw [hr.states i]
    rfl
  rw [hsnapshot]
  exact ⟨hcarries.persist (by simp) hbytes, fun e he => (hr.seen e he).of_deliveries htrace,
    hr.logged.of_deliveries htrace⟩

/-- Server `i` starts over. A snapshot that was on disk before the service heard of it is taken
over now. -/
theorem restart (hr : Represents P h a chosen rest) (hok : recovers h.raft (.restart i)) :
    ∃ a₁ a', (a₁ = a ∨ ∃ j, a.step P.toMachine (.install i j) = some a₁) ∧
      a₁.step P.toMachine (.restart i) = some a' ∧
      Represents P (h.restart P i) a' chosen rest := by
  have hdisk := (hr.supplied.servers i).raft.disk
  have hindex := (hr.supplied.servers i).raft.savedIndex
  have hseen : ∀ e ∈ chosen, Seen (h.raft.restart i) e := hr.seen
  have hlogged : Logged (h.raft.restart i) a.log := hr.logged
  rcases hdisk with ⟨hzero, hnil⟩ | hencoded
  · -- nothing on disk: the service starts afresh
    have hnone : a.persisted i = none := by
      cases hp : a.persisted i with
      | none => rfl
      | some s => exact absurd hnil (hr.persisted i s hp)
    have hrestart : h.restart P i =
        { h with raft := h.raft.restart i }.setReplica i { state := P.start } := by
      simp [Host.restart, Host.readSnapshot, hnil]
    have hstart : a.restart P.toMachine i = a.setState i P.start := by
      simp [AgreedLog.restart, hnone]
    refine ⟨a, a.restart P.toMachine i, .inl rfl, rfl, ?_⟩
    rw [hrestart, hstart]
    refine ⟨hr.toCarries.boot hok ((AgreedLog.kept_reached _).start _) ?_, hseen, hlogged⟩
    rw [P.position_start, hindex, hzero]
  · obtain ⟨s, hs, hposition, hdata, hdecode⟩ := hr.decode hencoded
    obtain ⟨j, hj⟩ := List.getElem?_of_mem hs
    refine ⟨a.install P.toMachine i s, (a.install P.toMachine i s).restart P.toMachine i,
      .inr ⟨j, ?_⟩, rfl, ?_⟩
    · show (a.snapshots[j]?).map (a.install P.toMachine i) = _
      rw [hj]
      rfl
    · have hboot := hr.toCarries.boot hok (hr.sound.snapshots s hs) (hposition.trans hindex.symm)
      have hup : ((h.raft.restart i).nodes i).up = true := by simp [World.restart, Node.boot]
      have hdelivered : ((h.raft.restart i).nodes i).delivered = P.position s := by
        simp only [World.restart, setNode_self, Node.boot, make_eq]
        rw [hindex, hposition]
      obtain ⟨hcarries, hbytes, htrace, -⟩ :=
        hboot.takeSnapshot hup hs (Nat.le_of_eq hdelivered.symm)
      have hrestart : h.restart P i = { h with
          raft := (h.raft.restart i).takeSnapshot i (P.position s) (P.encode s) }.setReplica i
          { state := s } := by
        unfold Host.restart
        rw [readSnapshot_eq hdecode, hdata]
      have hinstall : (a.install P.toMachine i s).restart P.toMachine i =
          { a.setState i s with persisted := Function.update a.persisted i (some s) } := by
        simp [AgreedLog.restart, AgreedLog.install, AgreedLog.setState]
      rw [hrestart, hinstall]
      exact ⟨hcarries.persist hs hbytes, fun e he => (hseen e he).of_deliveries htrace,
        hlogged.of_deliveries htrace⟩

/-- **Every step of a host is at most two steps of the agreed log.** -/
theorem step (hr : Represents P h a chosen rest) {act : Host.Action n C ω}
    (hok : Host.recovers h act) (hstep : Host.step P h act = some h') :
    ∃ acts a' chosen' rest', (AgreedLog.system P.toMachine).run a acts = some a' ∧
      Represents P h' a' chosen' rest' := by
  cases act with
  | raft act =>
    simp only [Host.step, Option.ite_none_right_eq_some, Option.map_eq_some_iff] at hstep
    obtain ⟨hinternal, raft', hraft, rfl⟩ := hstep
    exact ⟨[], a, chosen, rest, rfl, hr.internal hinternal hok hraft⟩
  | submit i c =>
    simp only [Host.step, Option.ite_none_right_eq_some, Option.some.injEq] at hstep
    obtain ⟨hup, rfl⟩ := hstep
    rcases hr.submit hup c with ⟨-, rest', hr'⟩ | ⟨-, hr'⟩
    · exact ⟨[.propose c], _, chosen, rest', rfl, hr'⟩
    · exact ⟨[], a, chosen, rest, rfl, hr'⟩
  | receive i =>
    obtain ⟨a', chosen', rest', rfl | ⟨j, hj⟩, hr'⟩ := hr.receive hstep
    · exact ⟨[], a', chosen', rest', rfl, hr'⟩
    · exact ⟨[.append j], a', chosen', rest', AgreedLog.run_one hj, hr'⟩
  | process i o =>
    simp only [Host.step, Option.ite_none_right_eq_some, Option.bind_eq_some_iff] at hstep
    obtain ⟨hup, m, hinbox, hprocess⟩ := hstep
    obtain ⟨a', rfl | happly | ⟨j, hj⟩, hr'⟩ := hr.process hup hinbox hprocess
    · exact ⟨[], a', chosen, rest, rfl, hr'⟩
    · exact ⟨[.apply i o], a', chosen, rest, AgreedLog.run_one happly, hr'⟩
    · exact ⟨[.install i j], a', chosen, rest, AgreedLog.run_one hj, hr'⟩
  | snapshot i =>
    simp only [Host.step, Option.ite_none_right_eq_some, Option.some.injEq] at hstep
    obtain ⟨⟨hup, htakes⟩, rfl⟩ := hstep
    exact ⟨[.snapshot i], _, chosen, rest, rfl, hr.snapshot hup htakes⟩
  | restart i =>
    cases hstep
    obtain ⟨a₁, a', rfl | ⟨j, hj⟩, hrestart, hr'⟩ := hr.restart hok
    · exact ⟨[.restart i], a', chosen, rest, AgreedLog.run_one hrestart, hr'⟩
    · refine ⟨[.install i j, .restart i], a', chosen, rest, ?_, hr'⟩
      rw [System.run, show (AgreedLog.system P.toMachine).step a (.install i j) = some a₁ from hj]
      exact AgreedLog.run_one hrestart

end Represents

theorem represents_reach (P : Service σ C ω) (hreach : (Host.system n P).Reach Host.recovers h) :
    ∃ (a : AgreedLog (Fin n) C σ) (chosen rest : List (RaftLogEntry C)),
      (AgreedLog.system P.toMachine).Reach System.anyStep a ∧ Represents P h a chosen rest := by
  refine hreach.invariant (P := fun h => ∃ (a : AgreedLog (Fin n) C σ)
    (chosen rest : List (RaftLogEntry C)), (AgreedLog.system P.toMachine).Reach System.anyStep a ∧
      Represents P h a chosen rest) ⟨_, [], [], .init, represents_initial P⟩ ?_
  rintro h act h' - ⟨a, chosen, rest, ha, hr⟩ hok hstep
  obtain ⟨acts, a', chosen', rest', hrun, hr'⟩ := hr.step hok hstep
  exact ⟨a', chosen', rest', System.reach_run ha (fun _ _ => trivial) acts hrun, hr'⟩

/-- A timely run of the hosts that recovers is a run of hosts without arrays. -/
theorem Host.reach_of_timely {P : Service σ C ω} {x : InMemory (Host n C σ) n C}
    (h : (Host.carrier n P).inMemory.Reach ((Host.carrier n P).timely Host.recovers) x) :
    (Host.system n P).Reach Host.recovers x.state := by
  refine (Host.carrier n P).reach_state (fun h _ i hreach _ _ => ?_) h
  obtain ⟨_, _, _, -, hr⟩ := represents_reach P hreach
  exact commitIndex_le_of_recovers hr.reach i

/-- **Raft replicates the services it hosts.** In every timely run that recovers from its crashes
there is one agreed log: the replicas are in the states of a run over it, every command that some
service received is in it at its index, and no replica is ahead of what it was delivered. -/
theorem replicates (P : Service σ C ω) {x : InMemory (Host n C σ) n C}
    (hreach : (Host.carrier n P).inMemory.Reach ((Host.carrier n P).timely Host.recovers) x) :
    ∃ a : AgreedLog (Fin n) C σ, (AgreedLog.system P.toMachine).Reach System.anyStep a ∧
      (∀ i, (x.state.replicas i).state = a.states i) ∧ Logged x.state.raft a.log ∧
      ∀ i, P.position (a.states i) ≤ (x.state.raft.nodes i).delivered := by
  obtain ⟨a, chosen, rest, ha, hr⟩ := represents_reach P (Host.reach_of_timely hreach)
  refine ⟨a, ha, fun i => (hr.states i).symm, hr.logged, fun i => ?_⟩
  rw [hr.states i]
  exact (hr.stands i).position_le

/-- A service that keeps the bytes it is given. -/
def tape : Service (List UInt8) UInt8 Unit where
  start := []
  apply _ s c _ := some (s ++ [c])
  position := List.length
  Valid _ := True
  valid_start := trivial
  position_start := rfl
  apply_next := by
    intro o s c s' _ happly
    cases happly
    simp
  takesSnapshots := true
  encode s := default :: s
  decode := List.tail?
  decode_encode _ _ _ := rfl
  encode_ne_nil := by simp

/-- Server `i` leads, and servers `i` and `j` apply a command. -/
def appliedRun (i j : Fin n) (c : C) (o o' : ω) : List (Host.Action n C ω) :=
  [.raft (.electionTimeout i), .raft (.handle 0), .raft (.ret 0), .submit i c,
   .raft (.replicateLog i j 1), .raft (.handle 4), .raft (.ret 4), .raft (.updateCommitIndex i 1),
   .raft (.applyTake i), .receive i, .process i o, .raft (.applyDone i), .raft (.heartBeat i),
   .raft (.handle 5), .raft (.applyTake j), .receive j, .process j o']

/-- Afterwards server `i` takes a snapshot and restarts from it. -/
def tapeRun (i j : Fin n) (x : UInt8) : List (Host.Action n UInt8 Unit) :=
  appliedRun i j x () () ++ [.snapshot i, .restart i]

theorem tapeRun_runs :
    (((Host.carrier 3 tape).inMemory.runWhere ((Host.carrier 3 tape).timely Host.recovers)
        (Host.carrier 3 tape).inMemory.init (scheduled [] (tapeRun 0 1 default))).map fun x =>
      decide ((x.state.replicas 0).state = [default] ∧ (x.state.replicas 1).state = [default] ∧
        (x.state.raft.nodes 0).epoch = 1)) = some true := by
  decide +kernel

theorem replicates_tapeRun : ∃ x : InMemory (Host 3 UInt8 (List UInt8)) 3 UInt8,
    (Host.carrier 3 tape).inMemory.Reach ((Host.carrier 3 tape).timely Host.recovers) x ∧
    (x.state.replicas 0).state = [default] ∧ (x.state.replicas 1).state = [default] ∧
    ∃ a : AgreedLog (Fin 3) UInt8 (List UInt8),
      (AgreedLog.system tape.toMachine).Reach System.anyStep a ∧
      (∀ i, (x.state.replicas i).state = a.states i) ∧ Logged x.state.raft a.log ∧
      ∀ i, tape.position (a.states i) ≤ (x.state.raft.nodes i).delivered := by
  obtain ⟨x, hreach, h0, h1, -⟩ := System.exists_reach_of_runWhere tapeRun_runs
  exact ⟨x, hreach, h0, h1, replicates tape hreach⟩

end RaftLabs.Raft
