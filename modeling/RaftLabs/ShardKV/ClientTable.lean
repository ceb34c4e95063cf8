import Mathlib.Data.Prod.Lex
import Mathlib.Order.WithBot
import RaftLabs.Lib.Joins
import RaftLabs.ShardKV.Server

/-! The duplicate table under `merge`.

Of every client a table shows the number of its last request and whether it succeeded. Later
requests are above earlier ones, a success is above a failure of the same request, and below all
stands a client that is not in the table. In this order `merge` is the join, so that pulling the
same shards again, or in another order, leaves the same table. -/
namespace RaftLabs.ShardKV.ClientInfo
open Lib

/-- Both maps have the same clients. -/
def SameClients (info : ClientInfo) : Prop :=
  ∀ clientId, (info.completedReq clientId).isSome = (info.completedResult clientId).isSome

/-- No request has the number zero. -/
def Numbered (info : ClientInfo) : Prop :=
  ∀ clientId req, info.completedReq clientId = some req → 0 < req

structure WellFormed (info : ClientInfo) : Prop where
  clients : info.SameClients
  positive : info.Numbered

/-- Whether the client's last request succeeded. -/
def succeeded (info : ClientInfo) (clientId : Nat) : Bool := (info.result clientId).err = .ok

/-- The two infos have the same requests and successes. -/
def SameTable (a b : ClientInfo) : Prop :=
  ∀ clientId, a.completedReq clientId = b.completedReq clientId ∧
    ((a.result clientId).err = .ok ↔ (b.result clientId).err = .ok)

/-- Every request of `a` is in `b`, or a later one of the same client is, and its success is not
lost. -/
def Below (a b : ClientInfo) : Prop :=
  ∀ clientId req, a.completedReq clientId = some req →
    ∃ req', b.completedReq clientId = some req' ∧ req ≤ req' ∧
      (req' = req → (a.result clientId).err = .ok → (b.result clientId).err = .ok)

/-! ### The table as a function into a linear order -/

/-- What the table shows of a client. -/
def table (info : ClientInfo) (clientId : Nat) : WithBot (ℕ ×ₗ Bool) :=
  match info.completedReq clientId with
  | none => ⊥
  | some req => (toLex (req, info.succeeded clientId) : ℕ ×ₗ Bool)

variable {a b c : ClientInfo} {clientId req : Nat}

theorem table_of_none (h : a.completedReq clientId = none) : a.table clientId = ⊥ := by
  rw [table, h]

theorem table_of_some (h : a.completedReq clientId = some req) :
    a.table clientId = (toLex (req, a.succeeded clientId) : ℕ ×ₗ Bool) := by
  rw [table, h]

theorem req_of_some (h : a.completedReq clientId = some req) : a.req clientId = req := by
  rw [ClientInfo.req, h, Option.getD_some]

/-- A client that is not in the table has no success. -/
theorem WellFormed.failed_of_none (h : a.WellFormed) (hnone : a.completedReq clientId = none) :
    (a.result clientId).err ≠ .ok := by
  have hresult : a.completedResult clientId = none := by
    rw [← Option.not_isSome_iff_eq_none, ← h.clients clientId, hnone]
    simp
  simp [result, hresult]

theorem below_of_table_le (h : a.table ≤ b.table) : Below a b := by
  intro clientId req hreq
  have hle := h clientId
  rw [table_of_some hreq] at hle
  cases hb : b.completedReq clientId with
  | none =>
    rw [table_of_none hb] at hle
    exact absurd (le_bot_iff.mp hle) WithBot.coe_ne_bot
  | some req' =>
    rw [table_of_some hb, WithBot.coe_le_coe, Prod.Lex.toLex_le_toLex] at hle
    refine ⟨req', rfl, ?_, fun heq hok => ?_⟩
    · rcases hle with hlt | ⟨heq, -⟩
      · exact Nat.le_of_lt hlt
      · exact Nat.le_of_eq heq
    · subst heq
      rcases hle with hlt | ⟨-, hle⟩
      · exact absurd hlt (Nat.lt_irrefl _)
      · exact of_decide_eq_true (hle (decide_eq_true hok))

theorem table_le_of_below (h : Below a b) : a.table ≤ b.table := by
  intro clientId
  cases hreq : a.completedReq clientId with
  | none =>
    rw [table_of_none hreq]
    exact bot_le
  | some req =>
    obtain ⟨req', hb, hle, hok⟩ := h clientId req hreq
    rw [table_of_some hreq, table_of_some hb, WithBot.coe_le_coe, Prod.Lex.toLex_le_toLex]
    rcases Nat.lt_or_eq_of_le hle with hlt | heq
    · exact .inl hlt
    · exact .inr ⟨heq, fun hs => decide_eq_true (hok heq.symm (of_decide_eq_true hs))⟩

theorem sameTable_of_table_eq (ha : a.WellFormed) (hb : b.WellFormed) (h : a.table = b.table) :
    SameTable a b := by
  intro clientId
  have heq := congrFun h clientId
  cases hreq : a.completedReq clientId with
  | none =>
    cases hreq' : b.completedReq clientId with
    | none => exact ⟨rfl, iff_of_false (ha.failed_of_none hreq) (hb.failed_of_none hreq')⟩
    | some req' =>
      rw [table_of_none hreq, table_of_some hreq'] at heq
      exact absurd heq.symm WithBot.coe_ne_bot
  | some req =>
    cases hreq' : b.completedReq clientId with
    | none =>
      rw [table_of_some hreq, table_of_none hreq'] at heq
      exact absurd heq WithBot.coe_ne_bot
    | some req' =>
      rw [table_of_some hreq, table_of_some hreq', WithBot.coe_inj, toLex_inj, Prod.mk.injEq] at heq
      exact ⟨congrArg some heq.1, by simpa [succeeded] using heq.2⟩

/-! ### A request is recorded -/

/-- The table after a request; `doOperation` writes it. -/
def record (info : ClientInfo) (clientId reqNo : Nat) (err : Err) : ClientInfo where
  completedReq := Function.update info.completedReq clientId (some reqNo)
  completedResult := Function.update info.completedResult clientId (some { err := err })

theorem record_self {r : Nat} (err : Err) : (a.record clientId r err).req clientId = r ∧
    ((a.record clientId r err).result clientId).err = err := by
  simp [record, ClientInfo.req, result]

theorem record_of_ne {c' r : Nat} (h : c' ≠ clientId) (err : Err) :
    (a.record clientId r err).req c' = a.req c' ∧
      (a.record clientId r err).result c' = a.result c' := by
  simp [record, ClientInfo.req, result, Function.update_of_ne h]

theorem SameClients.record (ha : a.SameClients) (clientId reqNo : Nat) (err : Err) :
    (a.record clientId reqNo err).SameClients := by
  intro other
  by_cases hother : other = clientId
  · subst hother
    simp [ClientInfo.record]
  · simpa [ClientInfo.record, hother] using ha other

theorem Numbered.record (ha : a.Numbered) {reqNo : Nat} (clientId : Nat) (err : Err)
    (h : 0 < reqNo) : (a.record clientId reqNo err).Numbered := by
  intro other req hreq
  by_cases hother : other = clientId
  · subst hother
    simp only [ClientInfo.record, Function.update_self, Option.some.injEq] at hreq
    omega
  · simp only [ClientInfo.record, Function.update_of_ne hother] at hreq
    exact ha other req hreq

theorem wellFormed_empty : WellFormed {} where
  clients _ := rfl
  positive _ _ h := nomatch h

/-- The table of one client that has made one request. -/
def once (clientId reqNo : Nat) (err : Err) : ClientInfo :=
  ({} : ClientInfo).record clientId reqNo err

theorem wellFormed_once (clientId reqNo : Nat) (err : Err) (h : 0 < reqNo) :
    (once clientId reqNo err).WellFormed where
  clients := wellFormed_empty.clients.record clientId reqNo err
  positive := wellFormed_empty.positive.record clientId err h

/-! ### `merge`

One client at a time: the other table does not know it, has a later request of it, has the same
request which failed here, or has nothing to add. -/

/-- Merging keeps the maps together even if the other table does not have the same clients in
both: a number without a result counts as one with an empty result. -/
theorem SameClients.merge (ha : a.SameClients) (hb : b.Numbered) : (a.merge b).SameClients := by
  intro clientId
  have hclients := ha clientId
  cases hreq : b.completedReq clientId with
  | none => simp only [ClientInfo.merge, hreq, hclients]
  | some req =>
    simp only [ClientInfo.merge, hreq]
    split
    · rfl
    · rename_i hle
      split
      · -- the request was there, since it is not numbered zero, and only its result is replaced
        have hpos := hb clientId req hreq
        cases ha' : a.completedReq clientId with
        | none =>
          simp only [ClientInfo.req, ha', Option.getD_none] at hle
          omega
        | some _ => rfl
      · exact hclients

theorem Numbered.merge (ha : a.Numbered) (hb : b.Numbered) : (a.merge b).Numbered := by
  intro clientId req hreq
  cases hb' : b.completedReq clientId with
  | none =>
    simp only [ClientInfo.merge, hb'] at hreq
    exact ha clientId req hreq
  | some req' =>
    simp only [ClientInfo.merge, hb'] at hreq
    split at hreq
    · cases hreq
      exact hb clientId req hb'
    · exact ha clientId req hreq

theorem WellFormed.merge (ha : a.WellFormed) (hb : b.WellFormed) : (a.merge b).WellFormed where
  clients := ha.clients.merge hb.positive
  positive := ha.positive.merge hb.positive

theorem merge_of_none (h : b.completedReq clientId = none) :
    (a.merge b).completedReq clientId = a.completedReq clientId ∧
      (a.merge b).result clientId = a.result clientId := by
  simp [ClientInfo.merge, result, h]

theorem merge_of_lt (h : b.completedReq clientId = some req) (hlt : a.req clientId < req) :
    (a.merge b).completedReq clientId = some req ∧
      (a.merge b).result clientId = b.result clientId := by
  simp [ClientInfo.merge, result, h, hlt]

theorem merge_of_failed (h : b.completedReq clientId = some req) (heq : req = a.req clientId)
    (hfail : (a.result clientId).err ≠ .ok) :
    (a.merge b).completedReq clientId = a.completedReq clientId ∧
      (a.merge b).result clientId = b.result clientId := by
  constructor
  · simp [ClientInfo.merge, h, heq]
  · rw [result, ClientInfo.merge]
    simp [h, heq, hfail]

theorem merge_of_ge (h : b.completedReq clientId = some req) (hle : req ≤ a.req clientId)
    (hok : req = a.req clientId → (a.result clientId).err = .ok) :
    (a.merge b).completedReq clientId = a.completedReq clientId ∧
      (a.merge b).result clientId = a.result clientId := by
  have hrest : ¬ (req = a.req clientId ∧ (a.result clientId).err ≠ .ok) := fun h => h.2 (hok h.1)
  constructor
  · simp [ClientInfo.merge, h, Nat.not_lt.mpr hle]
  · rw [result, ClientInfo.merge]
    simp only [h, if_neg (Nat.not_lt.mpr hle), if_neg hrest]
    rfl

theorem table_congr (h : a.completedReq clientId = b.completedReq clientId ∧
    a.result clientId = b.result clientId) : a.table clientId = b.table clientId := by
  unfold table succeeded
  rw [h.1, h.2]

/-- `merge` is the join of the tables. -/
theorem table_merge (hb : b.WellFormed) : (a.merge b).table = a.table ⊔ b.table := by
  funext clientId
  rw [Pi.sup_apply]
  cases hreq : b.completedReq clientId with
  | none => rw [table_of_none hreq, sup_bot_eq, table_congr (merge_of_none hreq)]
  | some req =>
    cases hreq' : a.completedReq clientId with
    | none =>
      have hlt : a.req clientId < req := by
        simpa [ClientInfo.req, hreq'] using hb.positive clientId req hreq
      obtain ⟨hr, hres⟩ := merge_of_lt hreq hlt
      rw [table_of_none hreq', bot_sup_eq, table_congr ⟨hr.trans hreq.symm, hres⟩]
    | some req' =>
      have hreqa := req_of_some hreq'
      rcases Nat.lt_or_ge req' req with hlt | hge
      · obtain ⟨hr, hres⟩ := merge_of_lt (a := a) hreq (by omega)
        rw [table_congr ⟨hr.trans hreq.symm, hres⟩, table_of_some hreq, table_of_some hreq',
          eq_comm, sup_eq_right, WithBot.coe_le_coe, Prod.Lex.toLex_le_toLex]
        exact .inl hlt
      · by_cases hfail : req = req' ∧ (a.result clientId).err ≠ .ok
        · obtain ⟨rfl, hfail⟩ := hfail
          obtain ⟨hr, hres⟩ := merge_of_failed hreq hreqa.symm hfail
          rw [table_congr ⟨hr.trans (hreq'.trans hreq.symm), hres⟩, table_of_some hreq,
            table_of_some hreq', eq_comm, sup_eq_right, WithBot.coe_le_coe,
            Prod.Lex.toLex_le_toLex]
          exact .inr ⟨rfl, by simp [succeeded, hfail]⟩
        · have hok : req = a.req clientId → (a.result clientId).err = .ok := by
            rw [hreqa]
            simpa using hfail
          rw [table_congr (merge_of_ge hreq (by omega) hok), table_of_some hreq,
            table_of_some hreq', eq_comm, sup_eq_left, WithBot.coe_le_coe,
            Prod.Lex.toLex_le_toLex]
          rcases Nat.lt_or_eq_of_le hge with hlt | heq
          · exact .inl hlt
          · exact .inr ⟨heq, by simp [succeeded, hok (heq.trans hreqa.symm)]⟩

theorem joins_merge : Joins ClientInfo.merge WellFormed table where
  closed := WellFormed.merge
  view_merge _ hb := table_merge hb

/-- **`merge` is a join** of well-formed tables: idempotent, commutative and associative, it
yields the least table above both, so no request number falls and no success of the same request
is lost. What is merged out of some infos is the same table for every order, grouping and number
of repetitions. -/
theorem merge_is_join (ha : a.WellFormed) (hb : b.WellFormed) (hc : c.WellFormed) :
    SameTable (a.merge a) a ∧ SameTable (a.merge b) (b.merge a) ∧
    SameTable ((a.merge b).merge c) (a.merge (b.merge c)) ∧
    (a.merge b).WellFormed ∧ Below a (a.merge b) ∧ Below b (a.merge b) ∧
    (Below a c → Below b c → Below (a.merge b) c) ∧
    ∀ infos infos' x y, (∀ info ∈ infos, info.WellFormed) → (∀ info, info ∈ infos ↔ info ∈ infos') →
      Merged ClientInfo.merge infos x → Merged ClientInfo.merge infos' y → SameTable x y := by
  have hab := ha.merge hb
  refine ⟨?idem, ?comm, ?assoc, hab, ?left, ?right, ?least, ?merged⟩
  case idem => exact sameTable_of_table_eq (ha.merge ha) ha (joins_merge.view_merge_self ha)
  case comm => exact sameTable_of_table_eq hab (hb.merge ha) (joins_merge.view_merge_comm ha hb)
  case assoc =>
    exact sameTable_of_table_eq (hab.merge hc) (ha.merge (hb.merge hc))
      (joins_merge.view_merge_assoc ha hb hc)
  case left => exact below_of_table_le (joins_merge.view_le_merge_left ha hb)
  case right => exact below_of_table_le (joins_merge.view_le_merge_right ha hb)
  case least =>
    intro hac hbc
    exact below_of_table_le
      (joins_merge.view_merge_le ha hb (table_le_of_below hac) (table_le_of_below hbc))
  case merged =>
    intro infos infos' x y hinfos hsame hx hy
    have hinfos' : ∀ info ∈ infos', info.WellFormed := fun info h => hinfos info ((hsame info).mpr h)
    exact sameTable_of_table_eq (joins_merge.of_merged hx hinfos).1
      (joins_merge.of_merged hy hinfos').1 (joins_merge.view_eq_of_merged hx hy hinfos hsame)

/-- A request that failed in one group and succeeded in another stays a success, pulled once or
twice. -/
theorem merge_is_join_failedThenDone :
    (once 1 2 .wrongGroup).WellFormed ∧ (once 1 2 .ok).WellFormed ∧
    (once 2 1 .ok).WellFormed ∧
    SameTable ((once 1 2 .ok).merge (once 1 2 .wrongGroup))
      (((once 1 2 .wrongGroup).merge (once 1 2 .ok)).merge (once 1 2 .wrongGroup)) := by
  have hfail := wellFormed_once 1 2 .wrongGroup (by decide)
  have hdone := wellFormed_once 1 2 .ok (by decide)
  have hother := wellFormed_once 2 1 .ok (by decide)
  obtain ⟨-, -, -, -, -, -, -, hmerged⟩ := merge_is_join hfail hdone hother
  refine ⟨hfail, hdone, hother, ?_⟩
  refine hmerged _ _ _ _ ?_ ?_ (.merge (.given _) (.given _))
    (.merge (.merge (.given _) (.given _)) (.given _))
  · simp [hfail, hdone]
  · intro info
    simp only [Multiset.mem_add, Multiset.mem_singleton]
    tauto

end RaftLabs.ShardKV.ClientInfo
