/-
How often an insert takes effect. A traversal that has created its node is
removed under the id of the message that ended it, and one answered as
equal is not removed at all: either stays usable under its own id, and a
late or repeated `RequestAddContinue` walks on from where it stands.

While no such message creates a node, every `RequestAdd` causes at most one
node and one call of `Database::add` (`effects_once`).
-/
import Zql.Service

namespace Zql

open Transition

/-- What is charged to whom: inserts are numbered in the order their
`RequestAdd`s come. -/
structure Account where
  /-- The inserts so far. -/
  count : Nat
  /-- The insert whose traversal was last started under an id. -/
  owner : UInt32 → Option Nat
  /-- The latest insert under an id has been answered with `ResponseAddOk`. -/
  answered : UInt32 → Bool
  /-- The insert each node was created for, node by node. -/
  created : List Nat
  /-- The insert each call of `Database::add` was made for, call by call. -/
  called : List Nat
  /-- The exchanges that continued an insert answered before. -/
  late : List Exchange

namespace Account

def init : Account := ⟨0, fun _ => none, fun _ => false, [], [], []⟩

/-- The nodes and the calls of an exchange are the insert's. -/
def charge (c : Account) (e : Exchange) (n : Nat) : Account :=
  { c with
    created := c.created ++ List.replicate (e.after.heap.length - e.before.heap.length) n
    called := c.called ++ List.replicate (e.after.database.adds.length - e.before.database.adds.length) n }

def started : Response → Bool
  | .addTraverse _ => true
  | _ => false

def observe (c : Account) (e : Exchange) : Account :=
  match e.message with
  | .add id _ =>
    { c.charge e c.count with
      count := c.count + 1
      owner := if started e.response then Function.update c.owner id (some c.count) else c.owner
      answered := Function.update c.answered id (!started e.response) }
  | .addContinue _ request =>
    let id := request.initRequestId
    let charged :=
      match c.owner id with
      | none => c
      | some n => c.charge e n
    { charged with
      answered := if started e.response then c.answered else Function.update c.answered id true
      late := if c.answered id then c.late ++ [e] else c.late }

/-- The exchange left the trees and the tables as they were. -/
def Quiet (e : Exchange) : Prop :=
  e.after.heap = e.before.heap ∧ e.after.forest = e.before.forest ∧ e.after.database = e.before.database

/-- No insert has had a second node or a second call, every node and call
is some insert's, and continuing an answered insert did nothing. -/
structure EffectsOnce (s : Server) (c : Account) : Prop where
  created : c.created.Nodup
  called : c.called.Nodup
  nodes : c.created.length = s.heap.length
  calls : c.called.length = s.database.adds.length
  late : ∀ e ∈ c.late, Quiet e

/-- No step that creates a node is asked of a traversal that is still stored
after its id's insert was answered. -/
def OnTime (s : Server × Account) (a : Message × Env) : Prop :=
  ∀ id request, a.1 = .addContinue id request → s.1.Adds a.1 → s.2.answered request.initRequestId = false

/-! ## The invariant -/

/-- An insert not charged with anything. -/
def Unused (c : Account) (n : Nat) : Prop := n < c.count ∧ n ∉ c.created ∧ n ∉ c.called

structure Once (s : Server × Account) : Prop where
  effects : EffectsOnce s.1 s.2
  count : ∀ n, n ∈ s.2.created ∨ n ∈ s.2.called → n < s.2.count
  owner : ∀ k n, s.2.owner k = some n → n < s.2.count
  apart : ∀ k k' n, s.2.owner k = some n → s.2.owner k' = some n → k = k'
  unused : ∀ k t, s.1.holder.traverses[k]? = some (some t) → s.2.answered k = false →
    ∃ n, s.2.owner k = some n ∧ Unused s.2 n

theorem Once.init : Once (Server.init, init) where
  effects := ⟨List.nodup_nil, List.nodup_nil, rfl, rfl, nofun⟩
  count := by rintro n (h | h) <;> cases h
  owner := nofun
  apart := nofun
  unused := fun _ _ h => by simp [Server.init] at h

/-! ## Charging -/

theorem nodup_replicate {l : List Nat} {n k : Nat} (h : l.Nodup) (hn : n ∉ l) (hk : k ≤ 1) :
    (l ++ List.replicate k n).Nodup := by
  refine List.nodup_append.mpr ⟨h, ?_, fun x hx y hy he => ?_⟩
  · rw [List.nodup_replicate]
    omega
  · obtain ⟨-, rfl⟩ := List.mem_replicate.mp hy
    exact hn (he ▸ hx)

/-- Charging an insert that had nothing yet with a node at most and a call
at most. -/
theorem EffectsOnce.charge {c : Account} {e : Exchange} {n : Nat} (h : EffectsOnce e.before c)
    (hn : n ∉ c.created ∧ n ∉ c.called)
    (hheap : e.before.heap.length ≤ e.after.heap.length ∧ e.after.heap.length ≤ e.before.heap.length + 1)
    (hcalls : e.before.database.adds.length ≤ e.after.database.adds.length ∧
      e.after.database.adds.length ≤ e.before.database.adds.length + 1) :
    EffectsOnce e.after (c.charge e n) where
  created := nodup_replicate h.created hn.1 (by omega)
  called := nodup_replicate h.called hn.2 (by omega)
  nodes := by
    have := h.nodes
    simp only [Account.charge, List.length_append, List.length_replicate]
    omega
  calls := by
    have := h.calls
    simp only [Account.charge, List.length_append, List.length_replicate]
    omega
  late := h.late

theorem mem_charge {c : Account} {e : Exchange} {n m : Nat}
    (h : m ∈ (c.charge e n).created ∨ m ∈ (c.charge e n).called) : m = n ∨ m ∈ c.created ∨ m ∈ c.called := by
  simp only [Account.charge, List.mem_append, List.mem_replicate] at h
  tauto

theorem charge_quiet {c : Account} {e : Exchange} (h : Quiet e) (n : Nat) : c.charge e n = c := by
  obtain ⟨hheap, -, hdatabase⟩ := h
  simp [Account.charge, hheap, hdatabase]

theorem Unused.charge {c : Account} {e : Exchange} {n m : Nat} (h : Unused c m) (hne : m ≠ n) :
    Unused (c.charge e n) m := by
  refine ⟨h.1, fun hm => ?_, fun hm => ?_⟩
  · rcases mem_charge (.inl hm) with he | hm | hm
    · exact hne he
    · exact h.2.1 hm
    · exact h.2.2 hm
  · rcases mem_charge (.inr hm) with he | hm | hm
    · exact hne he
    · exact h.2.1 hm
    · exact h.2.2 hm

/-! ## Steps -/

theorem added_effects {env : Env} {s s' : Server} {id : UInt32} {request : RequestAdd} {response : Response}
    (h : Added env s id request s' response) :
    (s.heap.length ≤ s'.heap.length ∧ s'.heap.length ≤ s.heap.length + 1) ∧
      s.database.adds.length ≤ s'.database.adds.length ∧
      s'.database.adds.length ≤ s.database.adds.length + 1 := by
  cases h with
  | plain _ => simp [Database.add_adds]
  | root _ _ => simp [Database.add_adds]
  | started _ _ _ => simp

theorem added_quiet {env : Env} {s s' : Server} {id : UInt32} {request : RequestAdd} {response : Response}
    (h : Added env s id request s' response) (hs : started response = true) :
    Quiet ⟨env, .add id request, s, response, s'⟩ := by
  cases h with
  | plain _ => cases hs
  | root _ _ => cases hs
  | started _ _ _ => exact ⟨rfl, rfl, rfl⟩

theorem added_stored {env : Env} {s s' : Server} {id k : UInt32} {request : RequestAdd} {response : Response}
    {t : BTreeTraverse} (h : Added env s id request s' response)
    (ht : s'.holder.traverses[k]? = some (some t)) (hk : k ≠ id) : s.holder.traverses[k]? = some (some t) := by
  cases h with
  | plain _ => exact ht
  | root _ _ => exact ht
  | started _ _ _ => rwa [BTreeTraverseHolder.update_of_ne hk] at ht

theorem Once.added {env : Env} {s s' : Server} {c : Account} {id : UInt32} {request : RequestAdd}
    {response : Response} (ho : Once (s, c)) (h : Added env s id request s' response) :
    Once (s', c.observe ⟨env, .add id request, s, response, s'⟩) := by
  have hnew : c.count ∉ c.created ∧ c.count ∉ c.called :=
    ⟨fun hm => absurd (ho.count _ (.inl hm)) (lt_irrefl _), fun hm => absurd (ho.count _ (.inr hm)) (lt_irrefl _)⟩
  obtain ⟨hheap, hcalls⟩ := added_effects h
  have he := ho.effects.charge (e := ⟨env, .add id request, s, response, s'⟩) hnew hheap hcalls
  have howner : ∀ k n, (c.observe ⟨env, .add id request, s, response, s'⟩).owner k = some n →
      k = id ∧ n = c.count ∨ c.owner k = some n := by
    intro k n hk
    simp only [observe] at hk
    split at hk
    · rcases update_cases hk with ⟨rfl, hn⟩ | ⟨-, hk⟩
      · exact .inl ⟨rfl, (Option.some.inj hn).symm⟩
      · exact .inr hk
    · exact .inr hk
  refine ⟨⟨he.created, he.called, he.nodes, he.calls, he.late⟩, fun n hn => ?_, fun k n hk => ?_,
    fun k k' n hk hk' => ?_, fun k t ht hans => ?_⟩
  · rcases mem_charge hn with rfl | hn
    · exact Nat.lt_succ_self _
    · exact Nat.lt_succ_of_lt (ho.count n hn)
  · rcases howner k n hk with ⟨-, rfl⟩ | hk
    · exact Nat.lt_succ_self _
    · exact Nat.lt_succ_of_lt (ho.owner k n hk)
  · rcases howner k n hk with ⟨hid, hn⟩ | hold <;> rcases howner k' n hk' with ⟨hid', hn'⟩ | hold'
    · rw [hid, hid']
    · exact absurd hn (Nat.ne_of_lt (ho.owner k' n hold'))
    · exact absurd hn' (Nat.ne_of_lt (ho.owner k n hold))
    · exact ho.apart k k' n hold hold'
  · by_cases hid : k = id
    · -- the id's latest insert is this one, and it has started
      subst hid
      have hs : started response = true := by
        simpa only [observe, Function.update_self, Bool.not_eq_false'] using hans
      refine ⟨c.count, by simp only [observe, hs, if_true, Function.update_self], Nat.lt_succ_self _, ?_⟩
      simp only [observe, charge_quiet (added_quiet h hs)]
      exact hnew
    · have ht := added_stored h ht hid
      simp only [observe, Function.update_of_ne hid] at hans
      obtain ⟨n, hn, hu⟩ := ho.unused k t ht hans
      have hu := hu.charge (e := ⟨env, .add id request, s, response, s'⟩) (Nat.ne_of_lt hu.1)
      refine ⟨n, ?_, Nat.lt_succ_of_lt hu.1, hu.2⟩
      simp only [observe]
      split
      · rw [Function.update_of_ne hid]
        exact hn
      · exact hn

theorem answered_observe {env : Env} {s s' : Server} {c : Account} {id k : UInt32} {request : RequestAddContinue}
    {response : Response}
    (h : (c.observe ⟨env, .addContinue id request, s, response, s'⟩).answered k = false) :
    c.answered k = false ∧ (started response = false → k ≠ request.initRequestId) := by
  simp only [observe] at h
  split at h
  · next hs => exact ⟨h, fun hf => by rw [hs] at hf; cases hf⟩
  · rcases update_cases h with ⟨-, h⟩ | ⟨hk, h⟩
    · cases h
    · exact ⟨h, fun _ => hk⟩

theorem Once.quiet {env : Env} {s s' : Server} {c : Account} {id : UInt32} {request : RequestAddContinue}
    {response : Response} (ho : Once (s, c)) (hq : Quiet ⟨env, .addContinue id request, s, response, s'⟩)
    (hstored : ∀ (k : UInt32) (t : BTreeTraverse), s'.holder.traverses[k]? = some (some t) →
      ∃ t' : BTreeTraverse, s.holder.traverses[k]? = some (some t')) :
    Once (s', c.observe ⟨env, .addContinue id request, s, response, s'⟩) := by
  have hcharge : (match c.owner request.initRequestId with
      | none => c
      | some n => c.charge ⟨env, .addContinue id request, s, response, s'⟩ n) = c := by
    split
    · rfl
    · exact charge_quiet hq _
  have hans := @answered_observe env s s' c id
  simp only [observe, hcharge] at hans ⊢
  refine ⟨⟨ho.effects.created, ho.effects.called, ?_, ?_, fun e he => ?_⟩, ho.count, ho.owner, ho.apart,
    fun k t ht hk => ?_⟩
  · rw [show s'.heap = s.heap from hq.1]
    exact ho.effects.nodes
  · rw [show s'.database = s.database from hq.2.2]
    exact ho.effects.calls
  · simp only at he
    split at he
    · rcases List.mem_append.mp he with he | he
      · exact ho.effects.late e he
      · obtain rfl := List.mem_singleton.mp he
        exact hq
    · exact ho.effects.late e he
  · obtain ⟨t', ht'⟩ := hstored k t ht
    exact ho.unused k t' ht' (hans hk).1

theorem Once.ended {env : Env} {s s' : Server} {c : Account} {id : UInt32} {request : RequestAddContinue}
    {response : Response} {t : BTreeTraverse} (ho : Once (s, c)) (hresponse : started response = false)
    (ht : s.holder.traverses[request.initRequestId]? = some (some t))
    (hans : c.answered request.initRequestId = false)
    (hheap : s'.heap.length = s.heap.length + 1)
    (hcalls : s'.database.adds.length = s.database.adds.length + 1)
    (hstored : ∀ (k : UInt32) (u : BTreeTraverse), k ≠ request.initRequestId →
      s'.holder.traverses[k]? = some (some u) → s.holder.traverses[k]? = some (some u)) :
    Once (s', c.observe ⟨env, .addContinue id request, s, response, s'⟩) := by
  obtain ⟨n, hn, hu⟩ : ∃ n, c.owner request.initRequestId = some n ∧ Unused c n := ho.unused _ t ht hans
  have he := ho.effects.charge (e := ⟨env, .addContinue id request, s, response, s'⟩) hu.2
    ⟨hheap ▸ Nat.le_succ _, hheap.le⟩ ⟨hcalls ▸ Nat.le_succ _, hcalls.le⟩
  have hunans := @answered_observe env s s' c id
  simp only [observe, hn, hans] at hunans ⊢
  refine ⟨⟨he.created, he.called, he.nodes, he.calls, he.late⟩, fun m hm => ?_, ho.owner, ho.apart,
    fun k u hk hkans => ?_⟩
  · rcases mem_charge hm with rfl | hm
    · exact hu.1
    · exact ho.count m hm
  · obtain ⟨hk', hne⟩ := hunans hkans
    obtain ⟨m, hm, hum⟩ := ho.unused k u (hstored k u (hne hresponse) hk) hk'
    exact ⟨m, hm, hum.charge fun heq => hne hresponse (ho.apart k _ n (heq ▸ hm) hn)⟩

theorem Once.continued {env : Env} {s s' : Server} {c : Account} {id : UInt32} {request : RequestAddContinue}
    {response : Response} (ho : Once (s, c)) (hok : OnTime (s, c) (.addContinue id request, env))
    (h : Continued env s id request s' response) :
    Once (s', c.observe ⟨env, .addContinue id request, s, response, s'⟩) := by
  cases h with
  | equal hd =>
    exact ho.quiet ⟨rfl, rfl, rfl⟩ fun k t ht => ⟨t, (BTreeTraverseHolder.getTraverse_stored ..).mp ht⟩
  | @moved side t t' heap node hd ht hgo hnode =>
    obtain ⟨rfl, -⟩ := BTreeTraverse.goTo_moved hgo
    refine ho.quiet ⟨rfl, rfl, rfl⟩ fun k u hu => ?_
    rcases BTreeTraverseHolder.update_cases hu with ⟨rfl, -⟩ | ⟨-, hu⟩
    · exact ⟨t, ht⟩
    · exact ⟨u, hu⟩
  | @ended side t t' heap requestAdd row hd ht hgo hr hrow =>
    obtain ⟨node, hnode, hchild, rfl, -⟩ := BTreeTraverse.goTo_ended hgo
    have hans : c.answered request.initRequestId = false := hok id request rfl ⟨side, t, node, hd, ht, hnode, hchild⟩
    refine ho.ended rfl ht hans (by simp) (by simp [Database.add_adds]) fun k u hk hu => ?_
    obtain ⟨-, hu⟩ := BTreeTraverseHolder.removeTraverse_cases hu
    rwa [BTreeTraverseHolder.update_of_ne hk] at hu

/-- **Every insert takes effect at most once**, and an answered one never
again, as long as no message has an answered insert, whose traversal is
still stored, create a node. -/
theorem effects_once {s : Server × Account} {as : List (Message × Env)}
    (h : Runs (Guarded (ofPartial (served observe)) OnTime) (Server.init, init) as s) : EffectsOnce s.1 s.2 :=
  (h.invariant (served_keeps _ (fun _ _ _ _ _ _ _ ho _ hh => ho.added hh)
    fun _ _ _ _ _ _ _ ho hok hh => ho.continued hok hh) Once.init).effects

/-- `5` is the root, and `3` is inserted to the left of it. -/
theorem effects_once_pair :
    ∃ s, Runs (Guarded (ofPartial (served observe)) OnTime) (Server.init, init)
        [(.add 1 (.ofValue [0x35]), .calm), (.add 2 (.ofValue [0x33]), .calm),
          (.addContinue 3 ⟨2, -1⟩, .calm)] s ∧
      s.2.created = [0, 1] ∧ s.2.called = [0, 1] ∧ EffectsOnce s.1 s.2 := by
  have hrun : Runs (Guarded (ofPartial (served observe)) OnTime) (Server.init, init)
      [(.add 1 (.ofValue [0x35]), .calm), (.add 2 (.ofValue [0x33]), .calm),
        (.addContinue 3 ⟨2, -1⟩, .calm)] _ :=
    .cons ⟨nofun, rfl⟩ (.cons ⟨nofun, rfl⟩ (.cons ⟨fun _ _ hm _ => by cases hm; rfl, rfl⟩ .nil))
  exact ⟨_, hrun, rfl, rfl, effects_once hrun⟩

/-- The same, and the last message once more under a new id. -/
theorem effects_twice :
    ∃ s, Runs (ofPartial (served observe)) (Server.init, init)
        [(.add 1 (.ofValue [0x35]), .calm), (.add 2 (.ofValue [0x33]), .calm),
          (.addContinue 3 ⟨2, -1⟩, .calm), (.addContinue 4 ⟨2, -1⟩, .calm)] s ∧
      ¬ s.2.created.Nodup ∧ ¬ s.2.called.Nodup ∧ ∃ e ∈ s.2.late, ¬ Quiet e := by
  refine ⟨_, .cons rfl (.cons rfl (.cons rfl (.cons rfl .nil))), fun h => ?_, fun h => ?_, _, .head _, fun h => ?_⟩
  · exact absurd (show [0, 1, 1].Nodup from h) (by decide)
  · exact absurd (show [0, 1, 1].Nodup from h) (by decide)
  · exact absurd (congrArg List.length h.1) (by decide)

end Account

end Zql
