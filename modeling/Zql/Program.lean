/-
The test program against the server: both threads of the client at their own
statements, the byte strings on their way, and the workers that receive them. The
numbers from 1 on are inserted, as decimals, into one table.

Every run is followed by one of the network in which the client is the loop alone
(`Followed.step`), and so what holds of the network holds here, with nothing left
to assume of the rows (`program_inserts`, `program_codes`).
-/
import Zql.Ranking
import Zql.SendQueue

namespace Zql

open Transition

open Client (Main InsertExecutor Threads sendRequest requestRow)

open Client.Threads (numbered)

open Strings (Intact Remains)

structure Program where
  threads : Threads
  network : Network
  /-- `main` is the client whose messages are on their way. -/
  same : network.main = threads.main

namespace Program

def init : Program := ⟨.init, .init, rfl⟩

inductive Act
  /-- A thread takes its next step; `main` receives nothing. -/
  | thread (a : Threads.Act)
  /-- A worker receives the `k`th request on its way. -/
  | serve (k : Nat) (env : Nat → Env) (remains : Nat → Remains)
  /-- `main` receives the `k`th response on its way. -/
  | receive (k : Nat)

inductive Steps (rand : Nat → UInt32) : Step Program Act
  | thread {n : Program} {a : Threads.Act} {threads : Threads} : (∀ calls, a = .receive calls → calls = []) →
      n.threads.step rand a = some threads →
      Steps rand n (.thread a)
        ⟨threads,
          { n.network with
            main := threads.main
            requests := n.network.requests ++ Network.sentSince n.threads.main threads.main }, rfl⟩
  | serve {n : Program} {k : Nat} {env : Nat → Env} {remains : Nat → Remains} {network : Network} :
      Network.Steps rand n.network (.serve k env remains) network → (same : network.main = n.threads.main) →
      Steps rand n (.serve k env remains) ⟨n.threads, network, same⟩
  | receive {n : Program} {k : Nat} {network : Network} : n.threads.mainAt = .receive →
      Network.Steps rand n.network (.receive k) network →
      Steps rand n (.receive k) ⟨{ n.threads with main := network.main, mainAt := .lock }, network, rfl⟩

/-- The next id drawn is new. -/
def Fresh (rand : Nat → UInt32) (n : Program) : Prop := rand n.threads.main.drawn ∉ n.threads.main.sent.map (·.id)

instance (rand : Nat → UInt32) (n : Program) : Decidable (Fresh rand n) :=
  inferInstanceAs (Decidable (rand n.threads.main.drawn ∉ n.threads.main.sent.map (·.id)))

/-- The bytes of every node are still there when a worker looks. -/
def Sees (n : Program) : Act → Prop
  | .serve k env remains => n.network.Sees (.serve k env remains)
  | _ => True

/-- The steps after which no traversal has gone deeper than 63 steps. -/
def ShallowSteps (rand : Nat → UInt32) : Step Program Act := fun n a n' => Steps rand n a n' ∧ n'.network.server.Shallow

/-! ## The numbers -/

/-- `client_thread` is at a number below 100000, or done. -/
def Bounded (c : Threads) : Prop := c.i ≤ 100000 ∧ (c.clientAt ≠ .test → c.i < 100000)

theorem Bounded.client {c c' : Threads} (hb : Bounded c) (h : c.clientStep = some c') : Bounded c' := by
  unfold Threads.clientStep at h
  split at h
  · split at h
    · next hi =>
      split at h <;> obtain rfl := Option.some.inj h
      · exact ⟨hb.1, fun _ => hi⟩
      · exact hb
    · cases h
  · next hat =>
    split at h
    · obtain rfl := Option.some.inj h
      exact ⟨hb.1, fun _ => hb.2 (by simp [hat])⟩
    · cases h
  · next hat =>
    split at h
    · obtain rfl := Option.some.inj h
      exact ⟨hb.1, fun _ => hb.2 (by simp [hat])⟩
    · cases h
  · next hat =>
    obtain rfl := Option.some.inj h
    exact ⟨hb.2 (by simp [hat]), fun h => absurd rfl h⟩

theorem mainStep_client {rand : Nat → UInt32} {c c' : Threads} (h : c.mainStep rand = some c') :
    c'.i = c.i ∧ c'.clientAt = c.clientAt := by
  unfold Threads.mainStep at h
  split at h
  · split at h <;> cases h
    exact ⟨rfl, rfl⟩
  · cases h
    exact ⟨rfl, rfl⟩
  · split at h
    · split at h <;> cases h
      exact ⟨rfl, rfl⟩
    · cases h
      exact ⟨rfl, rfl⟩
  · cases h
    exact ⟨rfl, rfl⟩
  · split at h
    · cases h
      exact ⟨rfl, rfl⟩
    · obtain ⟨main, -, rfl⟩ := Option.map_eq_some_iff.mp h
      exact ⟨rfl, rfl⟩
  · cases h

theorem Bounded.step {rand : Nat → UInt32} {c c' : Threads} {a : Threads.Act} (hb : Bounded c)
    (h : c.step rand a = some c') : Bounded c' := by
  cases a with
  | client => exact hb.client h
  | main =>
    obtain ⟨hi, hat⟩ := mainStep_client h
    rw [Bounded, hi, hat]
    exact hb
  | receive calls =>
    simp only [Threads.step] at h
    split at h
    · obtain ⟨main, -, rfl⟩ := Option.map_eq_some_iff.mp h
      exact hb
    · cases h

theorem Bounded.made {c : Threads} {m : Main} (hb : Bounded c) (hf : Threads.Follows c m) : m.heap.length < 100000 := by
  have hmade := hf.made
  cases hat : c.clientAt with
  | test | lock _ | store _ =>
    have := hb.1
    simp only [hat, Client.ClientAt.toQueue] at hmade
    omega
  | unlock =>
    have := hb.2 (by simp [hat])
    simp only [hat, Client.ClientAt.toQueue] at hmade
    omega

theorem decimal_length {i : Nat} (h : i < 100000) : (decimal i).length ≤ 5 := by
  rw [decimal, List.length_map]
  exact (Nat.length_toDigits_le_iff (by decide) (by decide)).mpr h

theorem textSize_le (data : List UInt8) : textSize data ≤ 5 + data.length :=
  Nat.add_le_add_right (headSize_le _) _

theorem run_sendRequest (i : Nat) :
    (sendRequest i).run = ⟨Client.testdatabase, Client.testtable2, requestRow i (decimal i)⟩ :=
  InsertExecutor.run_new ..

theorem requestRow_toList (i : Nat) (data : Str) :
    (requestRow i data).toList = [(Client.dataField, data), (Client.idField, [UInt8.ofNat i])] := rfl

theorem requestRow_one (i : Nat) (data : Str) : OneOpe (requestRow i data) Client.dataField data := rfl

theorem value_sendRequest (i : Nat) : (sendRequest i).run.value? = some (decimal i) := by
  rw [run_sendRequest]
  exact Protocol.OneOpe.value? (requestRow_one i _)

theorem modest_sendRequest {i : Nat} (h : i < 100000) : Network.Modest (sendRequest i).run := by
  have hlength := decimal_length h
  rw [run_sendRequest]
  refine ⟨show (2 : Nat) < 2 ^ 32 by decide, fun c hc => ?_⟩
  simp only [RequestAdd.calls, requestRow_toList] at hc
  fin_cases hc <;> simp only [CborCall.payload, List.length_singleton] <;> first | decide | omega

theorem roomy_sendRequest {i : Nat} (h : i < 100000) : Network.Roomy (sendRequest i).run where
  columns := by
    rw [run_sendRequest]
    intro he
    have hsize : (requestRow i (decimal i)).size = 2 := rfl
    rw [show requestRow i (decimal i) = ∅ from he] at hsize
    cases hsize
  request := fun id => by
    have hid := headSize_le id
    have hdata := textSize_le (decimal i)
    have hlength := decimal_length h
    rw [run_sendRequest, addSize, requestRow_toList]
    simp only [List.map_cons, List.map_nil, List.sum_cons, List.sum_nil]
    rw [show textSize Client.testdatabase = 13 from rfl, show textSize Client.testtable2 = 11 from rfl,
      show textSize Client.dataField = 9 from rfl, show textSize Client.idField = 3 from rfl,
      show textSize [UInt8.ofNat i] = 2 from rfl]
    have hcolumns := headSize_le (Int32.ofNat (requestRow i (decimal i)).size).toUInt32
    omega
  response := fun value hvalue id initRequestId => by
    have hid := headSize_le id
    have hinit := headSize_le initRequestId
    have hlength := decimal_length h
    obtain rfl : decimal i = value := Option.some.inj ((value_sendRequest i).symm.trans hvalue)
    have hdata := textSize_le (decimal i)
    rw [traverseReplySize]
    omega

/-! ## The network it is -/

variable {rand : Nat → UInt32} {seen : Prop} {ok : Server → Prop} {n n' : Program} {a : Act}

/-- The steps of the network after which `ok`, and its guard. -/
abbrev NetworkRuns (rand : Nat → UInt32) (seen : Prop) (ok : Server → Prop) :=
  Runs (Guarded (fun n a n' => Network.Steps rand n a n' ∧ ok n'.server) fun n a => Network.Clean rand n a ∧ (seen → n.Sees a))

/-- The network does the same, with the loop for a client. -/
def Followed (rand : Nat → UInt32) (seen : Prop) (ok : Server → Prop) (n : Program) : Prop :=
  ∃ (m : Main) (as : List Network.Act) (bs : List Main.Act), Threads.Follows n.threads m ∧
    NetworkRuns rand seen ok .init as { n.network with main := m } ∧
    Runs (Main.Steps rand) .init bs m ∧ bs.filterMap Main.Act.queued? = numbered m.heap.length ∧ Bounded n.threads

theorem Followed.init : Followed rand seen ok init :=
  ⟨.init, [], [], .init, .nil, .nil, rfl, by decide, nofun⟩

theorem Fresh.loop {m : Main} (h : Fresh rand n) (hf : Threads.Follows n.threads m) : rand m.drawn ∉ m.sent.map (·.id) := by
  rw [Fresh, hf.main] at h
  exact h

theorem Followed.thread {t : Threads.Act} (hn : Followed rand seen ok n)
    (hfresh : Fresh rand n)
    (hn' : ok n'.network.server) (h : Steps rand n (.thread t) n') : Followed rand seen ok n' := by
  obtain ⟨m, as, bs, hf, hrun, hloop, hqueued, hb⟩ := hn
  cases h with
  | @thread _ _ threads hquiet hstep =>
  obtain ⟨a?, hreceive, m', k, hact, hf', hlength, hadded⟩ : Threads.Alone rand m threads := by
    cases t with
    | client => exact hf.client hstep
    | main => exact hf.step_main hstep
    | receive calls =>
      obtain rfl := hquiet calls rfl
      exact ⟨none, nofun, hf.receive hstep⟩
  have hb' : Bounded threads := hb.step hstep
  have hsent : Network.sentSince n.threads.main threads.main = Network.sentSince m m' := by
    rw [hf.main, hf'.main]
    rfl
  obtain ⟨cs, hmore⟩ : ∃ cs, NetworkRuns rand seen ok { n.network with main := m } cs
      { n.network with main := m', requests := n.network.requests ++ Network.sentSince m m' } := by
    cases a? with
    | none =>
      obtain rfl := hact.of_nil
      rw [Network.sentSince_same rfl, List.append_nil]
      exact ⟨[], .nil⟩
    | some a =>
      refine ⟨[.client a], .one ⟨⟨⟨hfresh.loop hf, ?_⟩, fun _ => trivial⟩,
        .client (fun c hc => hreceive c (hc ▸ rfl)) hact.of_one, hn'⟩⟩
      rintro database table row ⟨⟩
      -- the row is that of the next number
      have hmem : (⟨database, table, row⟩ : RequestAdd) ∈
          (List.range' m.heap.length k).map fun a => (sendRequest (a + 1)).run := by
        rw [← hadded]
        simp [Main.Act.queued?]
      obtain ⟨j, hj, heq⟩ := List.mem_map.mp hmem
      have hmade := hb'.made hf'
      rw [List.mem_range'_1] at hj
      rw [← heq]
      exact modest_sendRequest (by omega)
  refine ⟨m', as ++ cs, bs ++ a?.toList, hf', ?_, hloop.append hact, ?_, hb'⟩
  · rw [hsent]
    exact hrun.append hmore
  · rw [List.filterMap_append, hqueued, hadded, hlength, Threads.numbered_append]

theorem Followed.serve {k : Nat} {env : Nat → Env} {remains : Nat → Remains} (hn : Followed rand seen ok n)
    (hfresh : Fresh rand n)
    (hsees : seen → n.Sees (.serve k env remains)) (hn' : ok n'.network.server) (h : Steps rand n (.serve k env remains) n') :
    Followed rand seen ok n' := by
  obtain ⟨m, as, bs, hf, hrun, hloop, hqueued, hb⟩ := hn
  cases h with
  | serve hserve same =>
  cases hserve with
  | serve hfree hdata hpass =>
  exact ⟨m, as ++ [.serve k env remains], bs, hf,
    hrun.snoc ⟨⟨⟨hfresh.loop hf, nofun⟩, hsees⟩, .serve hfree hdata hpass, hn'⟩, hloop, hqueued, hb⟩

theorem finishedSince_shared {m m' : Main} (hand : List (Option InsertExecutor)) (executors : List Nat) (hs : m'.Safe)
    (hheap : m'.heap.length = m.heap.length) :
    Network.finishedSince (m.shared hand executors) (m'.shared hand executors) = Network.finishedSince m m' := by
  refine List.filterMap_congr fun a ha => ?_
  have hlt := (List.getElem?_eq_some_iff.mp (hs.done a (List.mem_of_mem_drop ha))).1
  show ((m.heap ++ hand)[a]?.join).map _ = _
  rw [List.getElem?_append_left (hheap ▸ hlt)]

theorem Followed.receive {k : Nat} (hn : Followed rand seen ok n)
    (hfresh : Fresh rand n)
    (hn' : ok n'.network.server) (h : Steps rand n (.receive k) n') : Followed rand seen ok n' := by
  obtain ⟨m, as, bs, hf, hrun, hloop, hqueued, hb⟩ := hn
  cases h with
  | receive hat hreceive =>
  cases hreceive with
  | @receive _ _ data fuel p main hdata hparse =>
  have hmain : n.network.main = m.shared n.threads.inHand n.threads.main.executors := n.same.trans hf.main
  rw [hmain] at hparse
  obtain ⟨calls, m', hparse', hcalls, rfl⟩ := Main.shared_parse hf.safe hparse
  obtain ⟨m₁, hact, hsafe, hexecutors, hqueue, hheap, hcalls₁, -⟩ := Main.shared_calls rand calls hf.safe
    n.threads.inHand n.threads.main.executors
  obtain rfl : m' = m₁ := Except.ok.inj (hcalls.symm.trans hcalls₁)
  refine ⟨m', as ++ [.receive k], bs ++ calls.map .receive, hf.received hat hsafe hexecutors hqueue hheap, ?_,
    hloop.append hact, ?_, hb⟩
  · have hstep : Network.Steps rand { n.network with main := m } (.receive k) _ := .receive hdata hparse'
    simp only [hmain, finishedSince_shared _ _ hsafe hheap]
    exact hrun.snoc ⟨⟨⟨hfresh.loop hf, nofun⟩, fun _ => trivial⟩, hstep, hn'⟩
  · rw [List.filterMap_append, hqueued, List.filterMap_map, hheap]
    simp [Main.Act.queued?]

theorem Followed.step (hn : Followed rand seen ok n)
    (h : Guarded (fun n a n' => Steps rand n a n' ∧ ok n'.network.server) (fun n a => Fresh rand n ∧ (seen → n.Sees a)) n a
      n') :
    Followed rand seen ok n' := by
  obtain ⟨⟨hfresh, hsees⟩, hstep, hn'⟩ := h
  cases a with
  | thread t => exact hn.thread hfresh hn' hstep
  | serve k env remains => exact hn.serve hfresh hsees hn' hstep
  | receive k => exact hn.receive hfresh hn' hstep

theorem Followed.runs {as : List Act}
    (h : Runs (Guarded (fun n a n' => Steps rand n a n' ∧ ok n'.network.server) fun n a => Fresh rand n ∧ (seen → n.Sees a))
      Program.init as n) : Followed rand seen ok n :=
  h.invariant (fun _ _ _ hn hs => hn.step hs) Followed.init

theorem mem_numbered {k : Nat} {r : RequestAdd} (h : r ∈ numbered k) : ∃ i, i ≤ k ∧ r = (sendRequest i).run := by
  obtain ⟨j, hj, rfl⟩ := List.mem_map.mp h
  exact ⟨j + 1, List.mem_range.mp hj, rfl⟩

theorem value_numbered (k : Nat) : (numbered k).filterMap (·.value?) = (List.range k).map fun i => decimal (i + 1) := by
  rw [numbered, List.filterMap_map, ← List.filterMap_eq_map]
  exact List.filterMap_congr fun i _ => value_sendRequest (i + 1)

/-- **What the program leaves**: the first numbers have been sent, some of them
have been acknowledged, each once, and there are nodes for some, one each. When
nothing is on its way, all have been acknowledged. If workers find the nodes' bytes
where they were, the table's tree is the textbook insertion of some of the numbers
with all that were acknowledged among them. -/
theorem program_inserts {as : List Act} (h : Runs (Guarded (Steps rand) fun n a => Fresh rand n ∧ (seen → n.Sees a)) init as n) :
    ∃ k, k < 100000 ∧ Network.begun n.network.main.sent = numbered k ∧ n.network.acknowledged.Subperm (numbered k) ∧
      (n.network.server.heap.map (·.ciphertext)).Subperm ((List.range k).map fun i => decimal (i + 1)) ∧
      (n.network.requests = [] → n.network.responses = [] → n.network.acknowledged.Perm (numbered k)) ∧
      (seen → ∃ rs : List RequestAdd, n.network.acknowledged.Subperm rs ∧ rs.Subperm (numbered k) ∧
        ∀ key, Protocol.values n.network.server key = Protocol.textbook Client.answer key rs) := by
  obtain ⟨m, as, bs, hf, hrun, hloop, hqueued, hb⟩ := @Followed.runs rand seen (fun _ => True) n as
    (h.mono fun _ _ _ hs => ⟨hs.1, hs.2, trivial⟩)
  have hclean : Runs (Guarded (Network.Steps rand) (Network.Clean rand)) .init as { n.network with main := m } :=
    hrun.mono fun _ _ _ hs => ⟨hs.1.1, hs.2.1⟩
  obtain ⟨k, hk, hbegun⟩ := Threads.begun_numbered hloop hqueued
  have hmade := hb.made hf
  have hsent : n.network.main.sent = m.sent := by
    rw [n.same, hf.main]
    rfl
  obtain ⟨p, hc⟩ := Network.Counts.runs hclean
  obtain ⟨asks, tells, -, -, -, -, hmail⟩ := hc.follows.mail
  have hrequests : p.requests.Subperm (numbered k) := hbegun ▸ hc.follows.requests_subperm
  have hanswered : p.answered.Subperm (numbered k) := (List.sublist_append_left ..).subperm.trans hrequests
  refine ⟨k, by omega, hsent ▸ hbegun, ?_, ?_, ?_, fun hseen => ?_⟩
  · exact ((List.sublist_append_left ..).subperm.trans hmail.answered).trans hanswered
  · have hsourced := hc.sourced
    rw [Protocol.Sourced, show p.server = n.network.server from hc.follows.agrees.server] at hsourced
    rw [← value_numbered]
    obtain ⟨l, hperm, hsub⟩ := hanswered
    exact hsourced.trans ((hperm.filterMap _).symm.subperm.trans (hsub.filterMap _).subperm)
  · rw [← hbegun]
    refine ((Network.network_completes hclean .nil).2 fun r hr => ?_).2
    obtain ⟨i, hi, rfl⟩ := mem_numbered (hbegun ▸ hr)
    exact roomy_sendRequest (by omega)
  · rw [← hbegun]
    exact Network.network_trees (hrun.mono fun _ _ _ hs => ⟨⟨hs.1.1, hs.1.2 hseen⟩, hs.2.1⟩)

/-- The first two numbers stand where the strings were. -/
def pairRemains : Nat → Remains := fun _ => Strings.standing [[0x31], [0x32]]

/-- The first two numbers have been stored, copied and sent, and the client of the
second has been shown the root. -/
def pairActs : List Act :=
  [.thread .client, .thread .client, .thread .client, .thread .client, .thread .client, .thread .client,
    .thread .client, .thread .client, .thread .main, .thread .main, .thread .main, .thread .main, .thread .main,
    .thread .main, .thread .main, .thread .main, .thread .main, .serve 0 (fun _ => .calm) pairRemains,
    .serve 0 (fun _ => .calm) pairRemains, .receive 0, .thread .main, .thread .main, .thread .main, .thread .main,
    .receive 0]

set_option maxRecDepth 8000 in
/-- And then it is answered. -/
theorem pair_runs :
    let step := Guarded (ShallowSteps UInt32.ofNat) fun n a => Fresh UInt32.ofNat n ∧ n.Sees a
    ∃ n n', Runs step init (pairActs ++ [.serve 0 (fun _ => .calm) pairRemains]) n ∧
      Runs step n [.thread .main, .thread .main, .thread .main, .thread .main, .receive 0] n' ∧
      (writtenSince .init n.network.server).length = 2 ∧ n'.network.acknowledged.length = 2 ∧
      n'.network.requests = [] ∧ n'.network.responses = [] := by
  intro step
  refine ⟨_, _, .cons ⟨⟨by decide, trivial⟩, .thread nofun rfl, by decide⟩
    (.cons ⟨⟨by decide, trivial⟩, .thread nofun rfl, by decide⟩
    (.cons ⟨⟨by decide, trivial⟩, .thread nofun rfl, by decide⟩
    (.cons ⟨⟨by decide, trivial⟩, .thread nofun rfl, by decide⟩
    (.cons ⟨⟨by decide, trivial⟩, .thread nofun rfl, by decide⟩
    (.cons ⟨⟨by decide, trivial⟩, .thread nofun rfl, by decide⟩
    (.cons ⟨⟨by decide, trivial⟩, .thread nofun rfl, by decide⟩
    (.cons ⟨⟨by decide, trivial⟩, .thread nofun rfl, by decide⟩
    (.cons ⟨⟨by decide, trivial⟩, .thread nofun rfl, by decide⟩
    (.cons ⟨⟨by decide, trivial⟩, .thread nofun rfl, by decide⟩
    (.cons ⟨⟨by decide, trivial⟩, .thread nofun rfl, by decide⟩
    (.cons ⟨⟨by decide, trivial⟩, .thread nofun rfl, by decide⟩
    (.cons ⟨⟨by decide, trivial⟩, .thread nofun rfl, by decide⟩
    (.cons ⟨⟨by decide, trivial⟩, .thread nofun rfl, by decide⟩
    (.cons ⟨⟨by decide, trivial⟩, .thread nofun rfl, by decide⟩
    (.cons ⟨⟨by decide, trivial⟩, .thread nofun rfl, by decide⟩
    (.cons ⟨⟨by decide, trivial⟩, .thread nofun rfl, by decide⟩
    (.cons ⟨⟨by decide, fun _ => (by decide : Intact _ (pairRemains 0))⟩,
      .serve (@Network.Steps.serve _ _ 0 _ _ (Network.outgoing ⟨0, .add (sendRequest 1).run⟩) 60 _ _ (by decide) rfl rfl) rfl,
      by decide⟩
    (.cons ⟨⟨by decide, fun _ => (by decide : Intact _ (pairRemains 0))⟩,
      .serve (@Network.Steps.serve _ _ 0 _ _ (Network.outgoing ⟨1, .add (sendRequest 2).run⟩) 60 _ _ (by decide) rfl rfl) rfl,
      by decide⟩
    (.cons ⟨⟨by decide, trivial⟩,
      .receive rfl (@Network.Steps.receive _ _ 0 (Sent.new 9000 ⟨0, .addOk⟩).data 60 _ _ rfl rfl), by decide⟩
    (.cons ⟨⟨by decide, trivial⟩, .thread nofun rfl, by decide⟩
    (.cons ⟨⟨by decide, trivial⟩, .thread nofun rfl, by decide⟩
    (.cons ⟨⟨by decide, trivial⟩, .thread nofun rfl, by decide⟩
    (.cons ⟨⟨by decide, trivial⟩, .thread nofun rfl, by decide⟩
    (.cons ⟨⟨by decide, trivial⟩, .receive rfl
      (@Network.Steps.receive _ _ 0 (Sent.new 9000 ⟨1, .addTraverse ⟨1, [0x31]⟩⟩).data 60 _ _ rfl rfl), by decide⟩
    -- the bytes of `RequestAddContinue` 1, -1 under the id 2
    (.cons ⟨⟨by decide, fun _ => (by decide : Intact _ (pairRemains 0))⟩,
      .serve (@Network.Steps.serve _ _ 0 _ _ [217, 3, 232, 130, 2, 217, 12, 28, 130, 1, 33] 60 _ _ (by decide) (by decide) rfl) rfl,
      by decide⟩ .nil))))))))))))))))))))))))),
    .cons ⟨⟨by decide, trivial⟩, .thread nofun rfl, by decide⟩
    (.cons ⟨⟨by decide, trivial⟩, .thread nofun rfl, by decide⟩
    (.cons ⟨⟨by decide, trivial⟩, .thread nofun rfl, by decide⟩
    (.cons ⟨⟨by decide, trivial⟩, .thread nofun rfl, by decide⟩
    (.cons ⟨⟨by decide, trivial⟩,
      .receive rfl (@Network.Steps.receive _ _ 0 (Sent.new 10000 ⟨2, .addOk⟩).data 60 _ _ rfl rfl), by decide⟩ .nil)))),
    rfl, rfl, rfl, rfl⟩

/-- The first two numbers are stored and copied, sent, answered and acknowledged. -/
theorem program_inserts_pair :
    ∃ n, Runs (Guarded (Steps UInt32.ofNat) fun n a => Fresh UInt32.ofNat n ∧ (True → n.Sees a)) init
        (pairActs ++ [.serve 0 (fun _ => .calm) pairRemains] ++
          [.thread .main, .thread .main, .thread .main, .thread .main, .receive 0]) n ∧
      n.network.acknowledged.length = 2 ∧ ∃ k, k < 100000 ∧ n.network.acknowledged.Perm (numbered k) ∧
        ∃ rs : List RequestAdd, n.network.acknowledged.Subperm rs ∧ rs.Subperm (numbered k) ∧
          ∀ key, Protocol.values n.network.server key = Protocol.textbook Client.answer key rs := by
  obtain ⟨n, n', hrun, hrun', -, hboth, hrequests, hresponses⟩ := pair_runs
  have hruns : Runs (Guarded (Steps UInt32.ofNat) fun n a => Fresh UInt32.ofNat n ∧ (True → n.Sees a)) init _ n' :=
    (hrun.append hrun').mono fun _ _ _ hs => ⟨⟨hs.1.1, fun _ => hs.1.2⟩, hs.2.1⟩
  obtain ⟨k, hk, -, -, -, hall, htrees⟩ := program_inserts hruns
  exact ⟨n', hruns, hboth, k, hk, hall hrequests hresponses, htrees trivial⟩

/-- **The codes the program leaves**, as long as no traversal goes deeper than
63 steps and workers find the nodes' bytes where they were: of two rows stored, the
one whose number comes first as a text has the larger code. -/
theorem program_codes {as : List Act}
    (h : Runs (Guarded (ShallowSteps rand) fun n a => Fresh rand n ∧ n.Sees a) init as n) :
    ∃ stored : List (RequestAdd × Row), stored.map (·.2) = writtenSince .init n.network.server ∧
      (∃ k, k < 100000 ∧ (stored.map (·.1)).Subperm (numbered k)) ∧
      ∀ e ∈ stored, ∀ e' ∈ stored, ∃ i i' c c', e.1 = (sendRequest i).run ∧ e'.1 = (sendRequest i').run ∧
        Protocol.storedCode e = some (formatPath c) ∧ Protocol.storedCode e' = some (formatPath c') ∧
        compare (decimal i) (decimal i') = compare c' c := by
  obtain ⟨m, as, bs, hf, hrun, hloop, hqueued, hb⟩ := @Followed.runs rand True Server.Shallow n as
    (h.mono fun _ _ _ hs => ⟨⟨hs.1.1, fun _ => hs.1.2⟩, hs.2⟩)
  obtain ⟨k, hk, hbegun⟩ := Threads.begun_numbered hloop hqueued
  have hmade := hb.made hf
  have hruns : Runs (Guarded (Network.ShallowSteps rand) fun n a => Network.Clean rand n a ∧ n.Sees a) .init as
      { n.network with main := m } := hrun.mono fun _ _ _ hs => ⟨⟨hs.1.1, hs.1.2 trivial⟩, hs.2⟩
  obtain ⟨stored, hrows, hinserts, hcodes⟩ := Network.network_codes hruns fun r hr => by
    obtain ⟨i, -, rfl⟩ := mem_numbered (hbegun ▸ hr)
    rw [run_sendRequest]
    exact .inr ⟨_, _, requestRow_one i _⟩
  rw [hbegun] at hinserts
  refine ⟨stored, hrows, ⟨k, by omega, hinserts⟩, fun e he e' he' => ?_⟩
  have hnumber : ∀ e ∈ stored, ∃ i, i ≤ k ∧ e.1 = (sendRequest i).run := fun e he =>
    mem_numbered (hinserts.subset (List.mem_map_of_mem he))
  obtain ⟨i, -, hi⟩ := hnumber e he
  obtain ⟨i', -, hi'⟩ := hnumber e' he'
  have htree : e.1.tree = e'.1.tree := by
    rw [hi, hi', run_sendRequest, run_sendRequest]
    rfl
  obtain ⟨c, c', hc, hc', horder⟩ := hcodes e he e' he' htree (decimal i) (decimal i') (hi ▸ value_sendRequest i)
    (hi' ▸ value_sendRequest i')
  exact ⟨i, i', c, c', hi, hi', hc, hc', horder⟩

/-- The rows of the first two numbers are stored, the second over a traversal. -/
theorem program_codes_pair :
    ∃ n, Runs (Guarded (ShallowSteps UInt32.ofNat) fun n a => Fresh UInt32.ofNat n ∧ n.Sees a) init
        (pairActs ++ [.serve 0 (fun _ => .calm) pairRemains]) n ∧
      (writtenSince .init n.network.server).length = 2 ∧
      ∃ stored : List (RequestAdd × Row), stored.map (·.2) = writtenSince .init n.network.server ∧
        ∀ e ∈ stored, ∀ e' ∈ stored, ∃ i i' c c', e.1 = (sendRequest i).run ∧ e'.1 = (sendRequest i').run ∧
          Protocol.storedCode e = some (formatPath c) ∧ Protocol.storedCode e' = some (formatPath c') ∧
          compare (decimal i) (decimal i') = compare c' c := by
  obtain ⟨n, -, hrun, -, hboth, -⟩ := pair_runs
  obtain ⟨stored, hrows, -, horder⟩ := program_codes hrun
  exact ⟨n, hrun, hboth, stored, hrows, horder⟩

end Program

end Zql
