/-
The client's two threads, step by step: `client_thread` makes executors and
puts them into an array of 1000 slots, `main` copies them out and runs them. A
mutex guards the array; the test for room is made without it.

Whatever the scheduler does, the array is never written past its end and no slot
is read before it was written, and the two threads do what the loop of
`MainLoop` does with a list for a queue (`threads_follow`): the executors are
run once each, in the order they were made in.
-/
import Zql.MainLoop
import Zql.Network

namespace Zql

open Looping Transition

namespace Client

/-- The bytes of `"testdatabase"`. -/
def testdatabase : Str := [0x74, 0x65, 0x73, 0x74, 0x64, 0x61, 0x74, 0x61, 0x62, 0x61, 0x73, 0x65]

/-- The bytes of `"testtable2"`. -/
def testtable2 : Str := [0x74, 0x65, 0x73, 0x74, 0x74, 0x61, 0x62, 0x6C, 0x65, 0x32]

/-- The bytes of `"id"`. -/
def idField : Str := [0x69, 0x64]

/-- The bytes of `"data_ope"`. -/
def dataField : Str := [0x64, 0x61, 0x74, 0x61, 0x5F, 0x6F, 0x70, 0x65]

/-- The row `send_request` makes. An `int` assigned to a `std::string` is
taken as a `char`. -/
def requestRow (id : Nat) (data : Str) : Row := ((∅ : Row).insert idField [UInt8.ofNat id]).insert dataField data

/-- The executor for a number of `client_thread`. -/
def sendRequest (i : Nat) : InsertExecutor := .new testdatabase testtable2 (requestRow i (decimal i))

inductive Thread
  | client
  | main
  deriving DecidableEq

/-- Where `client_thread` stands: before the test for room, or in
`add_executor` with its new executor. -/
inductive ClientAt
  | test
  | lock (executor : Nat)
  | store (executor : Nat)
  | unlock

/-- Where `main` stands in its loop. -/
inductive MainAt
  | lock
  | test
  /-- It copies so many executors to its own array. -/
  | copy (executorsCount : Nat)
  | unlock
  | run
  | receive

/-- The executors in `main`'s own array are `main.executors`. The shared array is
the queue, and the list `main.executorQueue` is not used. -/
structure Threads where
  main : Main
  executorQueue : List (Option Nat)
  executorQueueOffset : Nat
  mutex : Option Thread
  i : Nat
  clientAt : ClientAt
  mainAt : MainAt

namespace Threads

def init : Threads :=
  { main := .init
    executorQueue := List.replicate 1000 none
    executorQueueOffset := 0
    mutex := none
    i := 1
    clientAt := .test
    mainAt := .lock }

inductive Act
  | client
  | main
  /-- `main` receives a message its parser makes these calls for, or none. -/
  | receive (calls : List ObjectCall)

/-- The next step of `client_thread`, unless it waits, has returned, or would
write past the end of the array. -/
def clientStep (c : Threads) : Option Threads :=
  match c.clientAt with
  | .test =>
    if c.i < 100000 then
      if c.executorQueueOffset < 900 then
        some { c with
          main := { c.main with heap := c.main.heap ++ [some (sendRequest c.i)] }
          clientAt := .lock c.main.heap.length }
      else some c
    else none
  | .lock executor => if c.mutex = none then some { c with mutex := some .client, clientAt := .store executor } else none
  | .store executor =>
    if c.executorQueueOffset < 1000 then
      some { c with
        executorQueue := c.executorQueue.set c.executorQueueOffset (some executor)
        executorQueueOffset := c.executorQueueOffset + 1
        clientAt := .unlock }
    else none
  | .unlock => some { c with mutex := none, i := c.i + 1, clientAt := .test }

/-- The next step of `main`, unless it waits, or would read a slot that was not
written or call an executor that is gone. -/
def mainStep (rand : Nat → UInt32) (c : Threads) : Option Threads :=
  match c.mainAt with
  | .lock => if c.mutex = none then some { c with mutex := some .main, mainAt := .test } else none
  | .test =>
    some { c with mainAt := if c.executorQueueOffset = 0 then .unlock else .copy c.executorQueueOffset }
  | .copy executorsCount =>
    if c.main.executors.length < executorsCount then
      match c.executorQueue[c.main.executors.length]? with
      | some (some executor) => some { c with main := { c.main with executors := c.main.executors ++ [executor] } }
      | _ => none
    else some { c with executorQueueOffset := 0, mainAt := .unlock }
  | .unlock => some { c with mutex := none, mainAt := .run }
  | .run =>
    match c.main.executors with
    | [] => some { c with mainAt := .receive }
    | _ :: _ => (c.main.step rand .runExecutor).toOption.map fun main => { c with main }
  | .receive => none

def step (rand : Nat → UInt32) (c : Threads) : Act → Option Threads
  | .client => c.clientStep
  | .main => c.mainStep rand
  | .receive calls =>
    match c.mainAt with
    | .receive => (calls.foldlM (Main.call rand) c.main).toOption.map fun main => { c with main, mainAt := .lock }
    | _ => none

end Threads

/-! ## Executors run in the order they were queued -/

namespace Main

/-- The insert an executor is queued for. -/
def Act.queued? : Act → Option RequestAdd
  | .addExecutor database table row => some { database, table, row }
  | _ => none

/-- The executor at an address has not run, and is for this insert. -/
def IsFor (m : Main) (a : Nat) (request : RequestAdd) : Prop := ∃ e, m.heap[a]? = some (some e) ∧ e.run = request

/-- What has been sent of the inserts queued, and what waits. -/
def InOrder (m : Main) (as : List Act) : Prop :=
  ∃ waiting, as.filterMap Act.queued? = Network.begun m.sent ++ waiting ∧
    List.Forall₂ m.IsFor (m.executors ++ m.executorQueue) waiting

theorem isFor_of_heap {m m' : Main} {l : List Nat} {waiting : List RequestAdd}
    (h : ∀ a ∈ l, m'.heap[a]? = m.heap[a]?) (hl : List.Forall₂ m.IsFor l waiting) : List.Forall₂ m'.IsFor l waiting := by
  induction hl with
  | nil => exact .nil
  | cons ha _ ih =>
    obtain ⟨e, he, hr⟩ := ha
    refine .cons ⟨e, (h _ List.mem_cons_self).trans he, hr⟩ (ih fun a hm => h a (List.mem_cons_of_mem _ hm))

/-- A call of a listener leaves the executors that wait alone, and begins no
insert. -/
theorem Safe.call_waiting {rand : Nat → UInt32} {m m' : Main} (hs : m.Safe) {c : ObjectCall} (h : m.call rand c = .ok m') :
    m'.executors = m.executors ∧ m'.executorQueue = m.executorQueue ∧ Network.begun m'.sent = Network.begun m.sent ∧
      m'.heap.length = m.heap.length ∧ ∀ a ∈ m.executors ++ m.executorQueue, m'.heap[a]? = m.heap[a]? := by
  cases c with
  | error _ =>
    cases h
    exact ⟨rfl, rfl, rfl, rfl, fun _ _ => rfl⟩
  | message wrapper =>
    have hlookup : ∀ {m₁ found}, m.listener wrapper.id = (m₁, found) → m₁.heap = m.heap ∧ m₁.executors = m.executors ∧
        m₁.executorQueue = m.executorQueue ∧ m₁.sent = m.sent := by
      intro m₁ found hl
      unfold Main.listener at hl
      split at hl <;> cases hl <;> exact ⟨rfl, rfl, rfl, rfl⟩
    cases hl : m.listener wrapper.id with | mk m₁ found =>
    obtain ⟨hheap, hexecutors, hqueue, hsent⟩ := hlookup hl
    have hsafe := hs.listener wrapper.id
    rw [hl] at hsafe
    cases found with
    | none =>
      simp only [Main.call, hl, Except.ok.injEq] at h
      subst h
      exact ⟨hexecutors, hqueue, by rw [hsent], by rw [hheap], fun _ _ => by rw [hheap]⟩
    | some a =>
      obtain ⟨⟨e, he⟩, hnot⟩ := hsafe.registered _ a (listener_some hl)
      simp only [Main.call, hl, Main.executor, he, Except.map, Except.ok.injEq] at h
      subst h
      rw [hexecutors, hqueue] at hnot
      unfold callback
      split
      · refine ⟨hexecutors, hqueue, by rw [← hsent]; rfl, List.length_set.trans (by rw [hheap]), fun b hb => ?_⟩
        have hne : a ≠ b := fun he => hnot (he ▸ hb)
        exact (List.getElem?_set_ne hne).trans (by rw [hheap])
      · refine ⟨hexecutors, hqueue, ?_, by rw [← hheap]; rfl, fun b _ => by rw [← hheap]; rfl⟩
        show Network.begun (m₁.sent ++ [_]) = _
        rw [Network.begun_append, hsent]
        simp [Network.begun]
      · exact ⟨hexecutors, hqueue, by rw [hsent], by rw [hheap], fun _ _ => by rw [hheap]⟩

theorem InOrder.step {rand : Nat → UInt32} {m m' : Main} {as : List Act} {a : Act} (hs : m.Safe) (ho : m.InOrder as)
    (h : m.step rand a = .ok m') : m'.InOrder (as ++ [a]) := by
  obtain ⟨waiting, has, hwaiting⟩ := ho
  cases a with
  | addExecutor database table row =>
    cases h
    refine ⟨waiting ++ [⟨database, table, row⟩], ?_, ?_⟩
    · rw [List.filterMap_append, has, List.append_assoc]
      rfl
    · rw [← List.append_assoc]
      refine List.rel_append (isFor_of_heap (fun a ha => ?_) hwaiting)
        (.cons ⟨_, List.getElem?_concat_length, InsertExecutor.run_new ..⟩ .nil)
      obtain ⟨e, he⟩ := hs.queued a ha
      exact List.getElem?_append_left (List.getElem?_eq_some_iff.mp he).1
  | takeQueue =>
    cases h
    refine ⟨waiting, ?_, ?_⟩
    · rw [List.filterMap_append, has]
      simp [Act.queued?]
    · rw [List.append_nil]
      exact hwaiting
  | runExecutor =>
    have hacts : (as ++ [Act.runExecutor]).filterMap Act.queued? = as.filterMap Act.queued? := by
      simp [List.filterMap_append, Act.queued?]
    cases hm : m.executors with
    | nil =>
      obtain rfl : m = m' := by simpa only [Main.step, hm, Except.ok.injEq] using h
      exact ⟨waiting, hacts.trans has, hwaiting⟩
    | cons a executors =>
      rw [hm, List.cons_append] at hwaiting
      obtain ⟨request, rest, ⟨e, he, hr⟩, hrest, rfl⟩ := List.forall₂_cons_left_iff.mp hwaiting
      obtain rfl : ({ m with executors } : Main).send rand a (.add e.run) = m' := by
        simpa only [Main.step, hm, Main.run, Main.executor, he, Except.map, Except.ok.injEq] using h
      refine ⟨rest, ?_, hrest⟩
      show _ = Network.begun (m.sent ++ [_]) ++ rest
      rw [hacts, has, Network.begun_append, ← hr]
      simp [Network.begun]
  | receive c =>
    obtain ⟨hexecutors, hqueue, hbegun, -, hheap⟩ := hs.call_waiting h
    refine ⟨waiting, ?_, ?_⟩
    · rw [List.filterMap_append, has, hbegun]
      simp [Act.queued?]
    · rw [hexecutors, hqueue]
      exact isFor_of_heap hheap hwaiting

/-- **The executors run once each, in the order they were queued in.** -/
theorem runs_in_order {rand : Nat → UInt32} {m : Main} {as : List Act} (h : Runs (Steps rand) Main.init as m) :
    m.InOrder as := by
  induction h with
  | nil => exact ⟨[], rfl, .nil⟩
  | snoc hr hs ih => exact ih.step (Safe.reached hr) hs

/-! ## What the two threads have of it -/

/-- `main`, while `client_thread` has these executors in hand, and with its
own array of executors. -/
def shared (m : Main) (hand : List (Option InsertExecutor)) (executors : List Nat) : Main :=
  { m with heap := m.heap ++ hand, executors, executorQueue := [] }

theorem shared_executor {m : Main} {a : Nat} {e : InsertExecutor} (hand : List (Option InsertExecutor))
    (executors : List Nat) (h : m.heap[a]? = some (some e)) : (m.shared hand executors).executor a = .ok e := by
  have hheap : (m.heap ++ hand)[a]? = some (some e) :=
    (List.getElem?_append_left (List.getElem?_eq_some_iff.mp h).1).trans h
  simp only [executor, shared, hheap]

/-- Running an executor is the same with others in hand. -/
theorem shared_run {rand : Nat → UInt32} {m : Main} {a : Nat} {executors : List Nat} (hs : m.Safe)
    (hm : m.executors = a :: executors) (hand : List (Option InsertExecutor)) :
    ∃ m', m.step rand .runExecutor = .ok m' ∧ m'.executors = executors ∧ m'.executorQueue = m.executorQueue ∧
      m'.heap = m.heap ∧ (m.shared hand (a :: executors)).step rand .runExecutor = .ok (m'.shared hand executors) := by
  obtain ⟨e, he⟩ : m.Live a := hs.queued a (by simp [hm])
  have hexecutor : ({ m with executors } : Main).executor a = .ok e := by simp only [executor, he]
  have hshared : (m.shared hand executors).executor a = .ok e := shared_executor hand executors he
  refine ⟨({ m with executors } : Main).send rand a (.add e.run), ?_, rfl, rfl, rfl, ?_⟩
  · simp only [Main.step, hm, Main.run, hexecutor, Except.map]
  · show (m.shared hand executors).run rand a = _
    simp only [Main.run, hshared, Except.map]
    rfl

theorem shared_call {rand : Nat → UInt32} {m m' : Main} {c : ObjectCall} (hs : m.Safe)
    (hand : List (Option InsertExecutor)) (executors : List Nat) (h : m.call rand c = .ok m') :
    (m.shared hand executors).call rand c = .ok (m'.shared hand executors) := by
  cases c with
  | error _ =>
    cases h
    rfl
  | message wrapper =>
    have hlistener : (m.shared hand executors).listener wrapper.id =
        ((m.listener wrapper.id).1.shared hand executors, (m.listener wrapper.id).2) := by
      unfold Main.listener
      simp only [shared]
      split <;> rfl
    have hsafe := hs.listener wrapper.id
    cases hl : m.listener wrapper.id with | mk m₁ found =>
    rw [hl] at hlistener hsafe
    cases found with
    | none =>
      simp only [Main.call, hl, Except.ok.injEq] at h
      subst h
      simp only [Main.call, hlistener]
    | some a =>
      obtain ⟨e, he⟩ := (hsafe.registered _ a (listener_some hl)).1
      have hexecutor : m₁.executor a = .ok e := by simp only [executor, he]
      simp only [Main.call, hl, hexecutor, Except.map, Except.ok.injEq] at h
      subst h
      simp only [Main.call, hlistener, shared_executor hand executors he, Except.map, Except.ok.injEq]
      unfold callback
      split
      · simp only [onResponseAddOk, shared, List.set_append_left _ _ (List.getElem?_eq_some_iff.mp he).1]
      · rfl
      · rfl

theorem shared_calls (rand : Nat → UInt32) {m : Main} (calls : List ObjectCall) (hs : m.Safe)
    (hand : List (Option InsertExecutor)) (executors : List Nat) :
    ∃ m', Runs (Steps rand) m (calls.map .receive) m' ∧ m'.Safe ∧ m'.executors = m.executors ∧
      m'.executorQueue = m.executorQueue ∧ m'.heap.length = m.heap.length ∧ calls.foldlM (Main.call rand) m = .ok m' ∧
      calls.foldlM (Main.call rand) (m.shared hand executors) = .ok (m'.shared hand executors) := by
  induction calls generalizing m with
  | nil => exact ⟨m, .nil, hs, rfl, rfl, rfl, rfl, rfl⟩
  | cons c calls ih =>
    obtain ⟨m₁, hm₁, hs₁⟩ : ∃ m', m.call rand c = .ok m' ∧ m'.Safe := hs.call c
    obtain ⟨hexecutors, hqueue, -, hlength, -⟩ := hs.call_waiting hm₁
    obtain ⟨m', hruns, hs', hexecutors', hqueue', hheap', hfold, hshared⟩ := ih hs₁
    refine ⟨m', hruns.cons (a := .receive c) hm₁, hs', hexecutors'.trans hexecutors, hqueue'.trans hqueue,
      hheap'.trans hlength, ?_, ?_⟩
    · rw [List.foldlM_cons, hm₁]
      exact hfold
    · rw [List.foldlM_cons, shared_call hs hand executors hm₁]
      exact hshared

/-- A parse makes the same calls with others in hand, and comes to the same
end. -/
theorem shared_parse {rand : Nat → UInt32} {fuel : Nat} {r : CborReader} {p p' : ObjectParser} {m main : Main}
    {hand : List (Option InsertExecutor)} {executors : List Nat} {e : CborEnd} (hs : m.Safe)
    (h : CborReader.run (ObjectParser.listen (Main.call rand)) fuel r (p, m.shared hand executors) =
      some (.ok (e, p', main))) :
    ∃ (calls : List ObjectCall) (m' : Main),
      CborReader.run (ObjectParser.listen (Main.call rand)) fuel r (p, m) = some (.ok (e, p', m')) ∧
      calls.foldlM (Main.call rand) m = .ok m' ∧ main = m'.shared hand executors := by
  induction fuel generalizing r p m with
  | zero => cases h
  | succ fuel ih =>
    cases hp : r.pass with
    | leave e =>
      rw [CborReader.run, loop_leave (CborReader.body_leave _ hp)] at h ⊢
      cases h
      exact ⟨[], m, rfl, rfl, rfl⟩
    | again s =>
      obtain ⟨r', none | event⟩ := s
      · rw [CborReader.run, loop_again (CborReader.body_quiet _ hp)] at h ⊢
        exact ih hs h
      cases hon : p.on event with
      | none =>
        have hlisten : ∀ x : Main, ObjectParser.listen (Main.call rand) (p, x) event = .error .badCast := by
          intro x
          simp only [ObjectParser.listen, hon]
        rw [CborReader.run, loop_leave (CborReader.body_error hp (hlisten _))] at h
        cases h
      | some s =>
        obtain ⟨p₁, none | c⟩ := s
        · have hlisten : ∀ x : Main, ObjectParser.listen (Main.call rand) (p, x) event = .ok (p₁, x) := by
            intro x
            simp only [ObjectParser.listen, hon]
          rw [CborReader.run, loop_again (CborReader.body_call hp (hlisten _))] at h ⊢
          exact ih hs h
        · obtain ⟨m₁, hm₁, hs₁⟩ : ∃ m', m.call rand c = .ok m' ∧ m'.Safe := hs.call c
          have hlisten : ∀ {x x' : Main}, x.call rand c = .ok x' →
              ObjectParser.listen (Main.call rand) (p, x) event = .ok (p₁, x') := by
            intro x x' hx
            simp only [ObjectParser.listen, hon, hx]
          rw [CborReader.run, loop_again (CborReader.body_call hp (hlisten (shared_call hs hand executors hm₁)))] at h
          obtain ⟨calls, m', hrun, hfold, hmain⟩ := ih hs₁ h
          refine ⟨c :: calls, m', ?_, ?_, hmain⟩
          · rw [CborReader.run, loop_again (CborReader.body_call hp (hlisten hm₁))]
            exact hrun
          · rw [List.foldlM_cons, hm₁]
            exact hfold

end Main

/-! ## The two threads and the loop -/

/-- The executor `client_thread` has made and not yet stored. -/
def ClientAt.hand? : ClientAt → Option Nat
  | .lock executor | .store executor => some executor
  | _ => none

def ClientAt.holds : ClientAt → Bool
  | .store _ | .unlock => true
  | _ => false

/-- Whether the number `client_thread` is at has still to be queued. -/
def ClientAt.toQueue : ClientAt → Nat
  | .unlock => 0
  | _ => 1

def MainAt.holds : MainAt → Bool
  | .test | .copy _ | .unlock => true
  | _ => false

namespace Threads

def inHand (c : Threads) : List (Option InsertExecutor) :=
  if c.clientAt.hand?.isSome then [some (sendRequest c.i)] else []

/-- What `main` has copied so far, beside what the loop has taken over. -/
def Copied (c : Threads) (m : Main) : Prop :=
  match c.mainAt with
  | .lock | .test | .receive => c.main.executors = [] ∧ m.executors = []
  | .copy executorsCount =>
    executorsCount = c.executorQueueOffset ∧ m.executors = [] ∧ c.main.executors <+: m.executorQueue
  | .unlock | .run => c.main.executors = m.executors

structure Follows (c : Threads) (m : Main) : Prop where
  safe : m.Safe
  main : c.main = m.shared c.inHand c.main.executors
  executor : ∀ a, c.clientAt.hand? = some a → a = m.heap.length
  made : m.heap.length + c.clientAt.toQueue = c.i
  slots : c.executorQueue.length = 1000
  queue : c.executorQueue.take c.executorQueueOffset = m.executorQueue.map some
  room : c.executorQueueOffset ≤ 900
  space : c.clientAt.hand?.isSome → c.executorQueueOffset < 900
  clientHolds : c.clientAt.holds = true ↔ c.mutex = some .client
  mainHolds : c.mainAt.holds = true ↔ c.mutex = some .main
  copied : c.Copied m

theorem Follows.init : Follows init .init where
  safe := Main.Safe.init
  main := rfl
  executor := nofun
  made := rfl
  slots := List.length_replicate
  queue := rfl
  room := by decide
  space := nofun
  clientHolds := ⟨nofun, nofun⟩
  mainHolds := ⟨nofun, nofun⟩
  copied := ⟨rfl, rfl⟩

theorem Follows.length {c : Threads} {m : Main} (hf : Follows c m) : m.executorQueue.length = c.executorQueueOffset := by
  have hlength := congrArg List.length hf.queue
  have := hf.slots
  have := hf.room
  simp only [List.length_take, List.length_map] at hlength
  omega

/-- What the loop does for a step of the threads, and what it queues by it. -/
def Matched (rand : Nat → UInt32) (m : Main) (c' : Threads) (as : List Main.Act) : Prop :=
  ∃ m' k, Runs (Main.Steps rand) m as m' ∧ Follows c' m' ∧ m'.heap.length = m.heap.length + k ∧
    as.filterMap Main.Act.queued? = (List.range' m.heap.length k).map fun a => (sendRequest (a + 1)).run

/-- One step at most, and it receives nothing. -/
def Alone (rand : Nat → UInt32) (m : Main) (c' : Threads) : Prop :=
  ∃ a? : Option Main.Act, (∀ call, a? ≠ some (.receive call)) ∧ Matched rand m c' a?.toList

theorem Follows.stay (rand : Nat → UInt32) {c' : Threads} {m : Main} (h : Follows c' m) : Alone rand m c' :=
  ⟨none, nofun, m, 0, .nil, h, rfl, rfl⟩

theorem take_set {l : List (Option Nat)} {n a : Nat} (h : n < l.length) :
    (l.set n (some a)).take (n + 1) = l.take n ++ [some a] := by
  rw [List.take_succ_eq_append_getElem (by simpa using h), List.take_set_of_le (Nat.le_refl _)]
  simp

theorem Follows.heap {c : Threads} {m : Main} (hf : Follows c m) : c.main.heap = m.heap ++ c.inHand := by
  rw [hf.main]
  rfl

theorem Follows.quiet {c c' : Threads} {m : Main} (hf : Follows c m) (hmain : c'.main = c.main)
    (hqueue : c'.executorQueue = c.executorQueue) (hoffset : c'.executorQueueOffset = c.executorQueueOffset)
    (hhand : c'.clientAt.hand? = c.clientAt.hand?) (hi : c'.clientAt.hand?.isSome → c'.i = c.i)
    (hmade : m.heap.length + c'.clientAt.toQueue = c'.i)
    (hclient : c'.clientAt.holds = true ↔ c'.mutex = some .client)
    (hholds : c'.mainAt.holds = true ↔ c'.mutex = some .main) (hcopied : c'.Copied m) : Follows c' m where
  safe := hf.safe
  main := by
    have hinHand : c'.inHand = c.inHand := by
      unfold inHand
      rw [hhand] at hi ⊢
      split
      · next hsome => rw [hi hsome]
      · rfl
    rw [hmain, hinHand]
    exact hf.main
  executor := by
    rw [hhand]
    exact hf.executor
  made := hmade
  slots := by
    rw [hqueue]
    exact hf.slots
  queue := by
    rw [hqueue, hoffset]
    exact hf.queue
  room := by
    rw [hoffset]
    exact hf.room
  space := by
    rw [hhand, hoffset]
    exact hf.space
  clientHolds := hclient
  mainHolds := hholds
  copied := hcopied

theorem Copied.congr {c c' : Threads} {m m' : Main} (h : c.Copied m) (hat : c'.mainAt = c.mainAt)
    (hexecutors : c'.main.executors = c.main.executors) (hoffset : c'.executorQueueOffset = c.executorQueueOffset)
    (hm : m'.executors = m.executors) (hqueue : m'.executorQueue = m.executorQueue) : c'.Copied m' := by
  unfold Copied at h ⊢
  rw [hat, hexecutors, hoffset, hm, hqueue]
  exact h

/-- While `main` does not hold the mutex, it has copied what the loop took. -/
theorem Copied.aside {c c' : Threads} {m m' : Main} (h : c.Copied m) (hnot : c.mainAt.holds = false)
    (hat : c'.mainAt = c.mainAt) (hexecutors : c'.main.executors = c.main.executors)
    (hm : m'.executors = m.executors) : c'.Copied m' := by
  unfold Copied at h ⊢
  rw [hat, hexecutors, hm]
  cases hmain : c.mainAt with
  | lock | run | receive => simpa [hmain] using h
  | test | copy _ | unlock =>
    rw [hmain] at hnot
    cases hnot

theorem Follows.create {c : Threads} {m : Main} (hf : Follows c m) (hat : c.clientAt = .test)
    (hspace : c.executorQueueOffset < 900) :
    Follows
      { c with
        main := { c.main with heap := c.main.heap ++ [some (sendRequest c.i)] }
        clientAt := .lock c.main.heap.length } m :=
  have hempty : c.inHand = [] := by simp [inHand, hat, ClientAt.hand?]
  have hheap : c.main.heap = m.heap := by rw [hf.heap, hempty, List.append_nil]
  { hf with
    main := by
      show ({ c.main with heap := c.main.heap ++ [some (sendRequest c.i)] } : Main) = _
      rw [hheap, hf.main]
      rfl
    executor := by
      intro a ha
      obtain rfl := Option.some.inj ha
      rw [hheap]
    made := by
      have hmade := hf.made
      rwa [hat] at hmade
    space := fun _ => hspace
    clientHolds := by
      have hholds := hf.clientHolds
      rw [hat] at hholds
      exact hholds
    copied := hf.copied.congr rfl rfl rfl rfl rfl }

theorem Follows.store {rand : Nat → UInt32} {c : Threads} {m : Main} {executor : Nat} (hf : Follows c m)
    (hat : c.clientAt = .store executor) :
    Alone rand m
      { c with
        executorQueue := c.executorQueue.set c.executorQueueOffset (some executor)
        executorQueueOffset := c.executorQueueOffset + 1
        clientAt := .unlock } := by
  have hmutex : c.mutex = some .client := hf.clientHolds.mp (by rw [hat]; rfl)
  have hspace : c.executorQueueOffset < 900 := hf.space (by rw [hat]; rfl)
  have hmade : m.heap.length + c.clientAt.toQueue = c.i := hf.made
  rw [hat] at hmade
  have hslots := hf.slots
  obtain rfl : executor = m.heap.length := hf.executor executor (by rw [hat]; rfl)
  obtain ⟨m', hm', hsafe⟩ : ∃ m', m.step rand (.addExecutor testdatabase testtable2 (requestRow c.i (decimal c.i))) =
      .ok m' ∧ m'.Safe := hf.safe.step _
  refine ⟨some (.addExecutor testdatabase testtable2 (requestRow c.i (decimal c.i))), nofun, m', 1, .one hm', ?_, ?_, ?_⟩
  · cases hm'
    have hinHand : c.inHand = [some (sendRequest c.i)] := by simp [inHand, hat, ClientAt.hand?]
    refine ⟨hsafe, ?_, nofun, ?_, ?_, ?_, hspace, nofun, ?_, ?_, ?_⟩
    · show c.main = _
      rw [hf.main, hinHand]
      simp [Main.shared, inHand, ClientAt.hand?, sendRequest]
    · simpa [ClientAt.toQueue] using hmade
    · simpa using hslots
    · show (c.executorQueue.set _ _).take _ = (m.executorQueue ++ [m.heap.length]).map some
      rw [take_set (by omega), hf.queue, List.map_append]
      rfl
    · simp [ClientAt.holds, hmutex]
    · exact hf.mainHolds
    · have hnot : c.mainAt.holds = false := by
        rw [Bool.eq_false_iff]
        intro hholds
        have hmain := hf.mainHolds.mp hholds
        rw [hmutex] at hmain
        cases hmain
      exact hf.copied.aside hnot rfl rfl rfl
  · cases hm'
    simp
  · rw [← hmade]
    simp [Main.Act.queued?, sendRequest, InsertExecutor.run_new, ClientAt.toQueue]

/-- **What `client_thread` does.** -/
theorem Follows.client {rand : Nat → UInt32} {c c' : Threads} {m : Main} (hf : Follows c m) (h : c.clientStep = some c') :
    Alone rand m c' := by
  unfold clientStep at h
  split at h
  · next hat =>
    split at h
    · split at h
      · next hspace =>
        obtain rfl := Option.some.inj h
        exact (hf.create hat hspace).stay rand
      · obtain rfl := Option.some.inj h
        exact hf.stay rand
    · cases h
  · next executor hat =>
    split at h
    · next hfree =>
      obtain rfl := Option.some.inj h
      have hmade := hf.made
      have hmain := hf.mainHolds
      rw [hat] at hmade
      rw [hfree] at hmain
      refine Follows.stay rand (hf.quiet rfl rfl rfl ?_ (fun _ => rfl) hmade ?_ ?_ (hf.copied.congr rfl rfl rfl rfl rfl))
      · rw [hat]
        rfl
      · simp [ClientAt.holds]
      · simpa using hmain
    · cases h
  · next executor hat =>
    split at h
    · obtain rfl := Option.some.inj h
      exact hf.store hat
    · cases h
  · next hat =>
    obtain rfl := Option.some.inj h
    have hmade := hf.made
    have hclient := hf.clientHolds
    have hmain := hf.mainHolds
    rw [hat] at hmade hclient
    rw [hclient.mp rfl] at hmain
    refine Follows.stay rand (hf.quiet rfl rfl rfl ?_ nofun (congrArg (· + 1) hmade) ?_ ?_
      (hf.copied.congr rfl rfl rfl rfl rfl))
    · rw [hat]
      rfl
    · simp [ClientAt.holds]
    · simpa using hmain

theorem Follows.move {c : Threads} {m : Main} {mutex : Option Thread} {mainAt : MainAt} (hf : Follows c m)
    (hclient : c.clientAt.holds = true ↔ mutex = some .client) (hmain : mainAt.holds = true ↔ mutex = some .main)
    (hcopied : Copied { c with mutex, mainAt } m) : Follows { c with mutex, mainAt } m :=
  hf.quiet rfl rfl rfl rfl (fun _ => rfl) hf.made hclient hmain hcopied

theorem Follows.held {c : Threads} {m : Main} (hf : Follows c m) (h : c.mainAt.holds = true) :
    c.mutex = some .main ∧ c.clientAt.holds = false := by
  have hmutex := hf.mainHolds.mp h
  refine ⟨hmutex, Bool.eq_false_iff.mpr fun hholds => ?_⟩
  have hclient := hf.clientHolds.mp hholds
  rw [hmutex] at hclient
  cases hclient

theorem Follows.copy {c : Threads} {m : Main} {executorsCount executor : Nat} (hf : Follows c m)
    (hat : c.mainAt = .copy executorsCount) (hlt : c.main.executors.length < executorsCount)
    (hslot : c.executorQueue[c.main.executors.length]? = some (some executor)) :
    Follows { c with main := { c.main with executors := c.main.executors ++ [executor] } } m := by
  have hcopied := hf.copied
  unfold Copied at hcopied
  simp only [hat] at hcopied
  obtain ⟨hcount, hnone, rest, hrest⟩ := hcopied
  have hread : m.executorQueue[c.main.executors.length]? = some executor := by
    have hqueue := congrArg (·[c.main.executors.length]?) hf.queue
    simp only [List.getElem?_take, hcount ▸ hlt, if_true, hslot, List.getElem?_map] at hqueue
    cases hm : m.executorQueue[c.main.executors.length]? <;> simp_all
  refine { hf with main := ?_, copied := ?_ }
  · show ({ c.main with executors := c.main.executors ++ [executor] } : Main) = _
    rw [hf.main]
    rfl
  · unfold Copied
    simp only [hat]
    refine ⟨hcount, hnone, ?_⟩
    rw [← hrest] at hread ⊢
    cases rest with
    | nil => simp at hread
    | cons next rest =>
      simp only [List.getElem?_append_right (Nat.le_refl _), Nat.sub_self, List.getElem?_cons_zero,
        Option.some.injEq] at hread
      exact ⟨rest, by simp [hread]⟩

theorem Follows.reset {rand : Nat → UInt32} {c : Threads} {m : Main} {executorsCount : Nat} (hf : Follows c m)
    (hat : c.mainAt = .copy executorsCount) (hdone : ¬ c.main.executors.length < executorsCount) :
    Alone rand m { c with executorQueueOffset := 0, mainAt := .unlock } := by
  have hcopied := hf.copied
  unfold Copied at hcopied
  simp only [hat] at hcopied
  obtain ⟨hcount, hnone, hprefix⟩ := hcopied
  have hall : c.main.executors = m.executorQueue := hprefix.eq_of_length_le (by rw [hf.length]; omega)
  obtain ⟨m', hm', hsafe⟩ : ∃ m', m.step rand .takeQueue = .ok m' ∧ m'.Safe := hf.safe.step _
  obtain ⟨hmutex, -⟩ := hf.held (by rw [hat]; rfl)
  refine ⟨some .takeQueue, nofun, m', 0, .one hm', ?_, ?_, rfl⟩
  · cases hm'
    exact { hf with
      safe := hsafe
      queue := rfl
      room := Nat.zero_le _
      space := fun _ => by simp
      mainHolds := by simp [MainAt.holds, hmutex]
      copied := by
        show c.main.executors = m.executors ++ m.executorQueue
        rw [hnone, hall, List.nil_append] }
  · cases hm'
    rfl

theorem Follows.run {rand : Nat → UInt32} {c c' : Threads} {m : Main} {executor : Nat} {executors : List Nat}
    (hf : Follows c m) (hat : c.mainAt = .run) (hexecutors : c.main.executors = executor :: executors)
    (h : ((c.main.step rand .runExecutor).toOption.map fun main => { c with main }) = some c') : Alone rand m c' := by
  have hcopied : c.main.executors = m.executors := by
    have := hf.copied
    unfold Copied at this
    simpa only [hat] using this
  obtain ⟨m', hm', hrest, hqueue, hheap, hshared⟩ := Main.shared_run hf.safe (hcopied ▸ hexecutors) c.inHand
  obtain ⟨m₁, hm₁, hsafe⟩ : ∃ m₁, m.step rand .runExecutor = .ok m₁ ∧ m₁.Safe := hf.safe.step _
  obtain rfl := Except.ok.inj (hm'.symm.trans hm₁)
  have hstep : c.main.step rand .runExecutor = .ok (m'.shared c.inHand executors) := by
    rw [hf.main, hexecutors]
    exact hshared
  rw [hstep] at h
  obtain rfl := Option.some.inj h
  refine ⟨some .runExecutor, nofun, m', 0, .one hm', ?_, by rw [hheap]; rfl, rfl⟩
  exact { hf with
    safe := hsafe
    main := rfl
    executor := by
      rw [hheap]
      exact hf.executor
    made := by
      rw [hheap]
      exact hf.made
    queue := by
      rw [hqueue]
      exact hf.queue
    copied := by
      unfold Copied
      simp only [hat]
      exact hrest.symm }

theorem Follows.received {c : Threads} {m m' : Main} (hf : Follows c m) (hat : c.mainAt = .receive) (hsafe : m'.Safe)
    (hexecutors : m'.executors = m.executors) (hqueue : m'.executorQueue = m.executorQueue)
    (hheap : m'.heap.length = m.heap.length) :
    Follows { c with main := m'.shared c.inHand c.main.executors, mainAt := .lock } m' :=
  have hcopied : c.main.executors = [] ∧ m.executors = [] := by
    have := hf.copied
    unfold Copied at this
    simpa only [hat] using this
  { hf with
    safe := hsafe
    main := rfl
    executor := by
      rw [hheap]
      exact hf.executor
    made := by
      rw [hheap]
      exact hf.made
    queue := by
      rw [hqueue]
      exact hf.queue
    mainHolds := by
      have hmain := hf.mainHolds
      rwa [hat] at hmain
    copied := ⟨hcopied.1, hexecutors.trans hcopied.2⟩ }

theorem Follows.receive {rand : Nat → UInt32} {c c' : Threads} {m : Main} {calls : List ObjectCall} (hf : Follows c m)
    (h : c.step rand (.receive calls) = some c') : Matched rand m c' (calls.map .receive) := by
  simp only [step] at h
  split at h
  · next hat =>
    obtain ⟨m', hruns, hsafe, hexecutors, hqueue, hheap, -, hshared⟩ := Main.shared_calls rand calls hf.safe
      c.inHand c.main.executors
    rw [← hf.main] at hshared
    rw [hshared] at h
    obtain rfl := Option.some.inj h
    refine ⟨m', 0, hruns, hf.received hat hsafe hexecutors hqueue hheap, hheap, ?_⟩
    rw [List.filterMap_map]
    simp [Main.Act.queued?]
  · cases h

/-- **What `main` does.** -/
theorem Follows.step_main {rand : Nat → UInt32} {c c' : Threads} {m : Main} (hf : Follows c m)
    (h : c.mainStep rand = some c') : Alone rand m c' := by
  have hcopied := hf.copied
  unfold Copied at hcopied
  unfold mainStep at h
  split at h
  · next hat =>
    simp only [hat] at hcopied
    split at h
    · next hfree =>
      obtain rfl := Option.some.inj h
      have hclient := hf.clientHolds
      rw [hfree] at hclient
      refine Follows.stay rand (hf.move ?_ (by simp [MainAt.holds]) hcopied)
      simpa using hclient
    · cases h
  · next hat =>
    simp only [hat] at hcopied
    obtain rfl := Option.some.inj h
    obtain ⟨hmutex, hclient⟩ := hf.held (by rw [hat]; rfl)
    refine Follows.stay rand (hf.move ?_ ?_ ?_)
    · simp [hclient, hmutex]
    · split <;> simp [MainAt.holds, hmutex]
    · by_cases hzero : c.executorQueueOffset = 0
      · simp only [hzero, if_true]
        exact hcopied.1.trans hcopied.2.symm
      · simp only [hzero, if_false]
        exact ⟨rfl, hcopied.2, hcopied.1 ▸ List.nil_prefix⟩
  · next executorsCount hat =>
    split at h
    · next hlt =>
      split at h
      · next executor hslot =>
        obtain rfl := Option.some.inj h
        exact (hf.copy hat hlt hslot).stay rand
      · cases h
    · next hdone =>
      obtain rfl := Option.some.inj h
      exact hf.reset hat hdone
  · next hat =>
    simp only [hat] at hcopied
    obtain rfl := Option.some.inj h
    obtain ⟨hmutex, hclient⟩ := hf.held (by rw [hat]; rfl)
    refine Follows.stay rand (hf.move (by simp [hclient]) (by simp [MainAt.holds]) hcopied)
  · next hat =>
    simp only [hat] at hcopied
    split at h
    · next hnone =>
      obtain rfl := Option.some.inj h
      have hmain := hf.mainHolds
      rw [hat] at hmain
      exact Follows.stay rand (hf.move hf.clientHolds hmain ⟨hnone, hcopied ▸ hnone⟩)
    · next executor executors hexecutors =>
      exact hf.run hat hexecutors h
  · cases h

/-! ## Runs -/

/-- The inserts of the first numbers. -/
def numbered (n : Nat) : List RequestAdd := (List.range n).map fun a => (sendRequest (a + 1)).run

theorem numbered_append (n k : Nat) :
    numbered n ++ (List.range' n k).map (fun a => (sendRequest (a + 1)).run) = numbered (n + k) := by
  rw [numbered, numbered, ← List.map_append, List.range_eq_range', List.range_eq_range']
  congr 1
  simpa using List.range'_append_1 (s := 0) (m := n) (n := k)

theorem Follows.step {rand : Nat → UInt32} {c c' : Threads} {m : Main} {a : Act} (hf : Follows c m)
    (h : c.step rand a = some c') : ∃ as, Matched rand m c' as := by
  cases a with
  | client =>
    obtain ⟨a?, -, hmatched⟩ := hf.client h
    exact ⟨_, hmatched⟩
  | main =>
    obtain ⟨a?, -, hmatched⟩ := hf.step_main h
    exact ⟨_, hmatched⟩
  | receive calls => exact ⟨_, hf.receive h⟩

/-- **Every run of the threads is one of the loop**, in which the executors of
the first numbers are queued. -/
theorem Follows.runs {rand : Nat → UInt32} {c : Threads} {as : List Act}
    (h : Runs (ofPartial (Threads.step rand)) Threads.init as c) :
    ∃ bs m, Runs (Main.Steps rand) Main.init bs m ∧ Follows c m ∧
      bs.filterMap Main.Act.queued? = numbered m.heap.length := by
  refine h.invariant (I := fun c => ∃ bs m, Runs (Main.Steps rand) Main.init bs m ∧ Follows c m ∧
    bs.filterMap Main.Act.queued? = numbered m.heap.length) (fun c a c' hI hs => ?_) ⟨[], .init, .nil, Follows.init, rfl⟩
  obtain ⟨bs, m, hruns, hf, hqueued⟩ := hI
  obtain ⟨as, m', k, hmore, hf', hlength, hadded⟩ := hf.step hs
  refine ⟨bs ++ as, m', hruns.append hmore, hf', ?_⟩
  rw [List.filterMap_append, hqueued, hadded, hlength, numbered_append]

theorem Follows.slot {c : Threads} {m : Main} (hf : Follows c m) {k : Nat} (hk : k < c.executorQueueOffset) :
    ∃ executor, c.executorQueue[k]? = some (some executor) := by
  have hqueue := congrArg (·[k]?) hf.queue
  have hlength : k < m.executorQueue.length := hf.length ▸ hk
  simp only [List.getElem?_take, hk, if_true, List.getElem?_map, List.getElem?_eq_getElem hlength] at hqueue
  exact ⟨_, hqueue⟩

/-- The array has room, its slots were written before they are read, and the
executors that are run are there: a thread waits for the mutex or not at all. -/
theorem Follows.enabled (rand : Nat → UInt32) {c : Threads} {m : Main} (hf : Follows c m) :
    ((∃ c', c.clientStep = some c') ∨ c.mutex = some .main ∨ 100000 ≤ c.i) ∧
      ((∃ c', c.mainStep rand = some c') ∨ c.mutex = some .client ∨ c.mainAt = .receive) := by
  have hwaits : ∀ t : Thread, c.mutex ≠ some t → c.mutex = none ∨ ∃ t', t' ≠ t ∧ c.mutex = some t' := by
    intro t ht
    cases hmutex : c.mutex with
    | none => exact .inl rfl
    | some t' => exact .inr ⟨t', fun he => ht (he ▸ hmutex), rfl⟩
  constructor
  · cases hat : c.clientAt with
    | test =>
      by_cases hi : c.i < 100000
      · by_cases hspace : c.executorQueueOffset < 900 <;> simp [clientStep, hat, hi, hspace]
      · exact .inr (.inr (Nat.le_of_not_lt hi))
    | lock executor =>
      have hnot : c.mutex ≠ some .client := fun hmutex => by
        have hholds := hf.clientHolds.mpr hmutex
        rw [hat] at hholds
        cases hholds
      rcases hwaits _ hnot with hfree | ⟨t, ht, hmutex⟩
      · exact .inl ⟨_, by simp only [clientStep, hat, hfree, if_true]; rfl⟩
      · cases t with
        | client => exact absurd rfl ht
        | main => exact .inr (.inl hmutex)
    | store executor =>
      have hspace := hf.space (by rw [hat]; rfl)
      exact .inl ⟨_, by simp only [clientStep, hat, show c.executorQueueOffset < 1000 by omega, if_true]; rfl⟩
    | unlock => exact .inl ⟨_, by simp only [clientStep, hat]; rfl⟩
  · have hcopied := hf.copied
    unfold Copied at hcopied
    cases hat : c.mainAt with
    | lock =>
      have hnot : c.mutex ≠ some .main := fun hmutex => by
        have hholds := hf.mainHolds.mpr hmutex
        rw [hat] at hholds
        cases hholds
      rcases hwaits _ hnot with hfree | ⟨t, ht, hmutex⟩
      · exact .inl ⟨_, by simp only [mainStep, hat, hfree, if_true]; rfl⟩
      · cases t with
        | client => exact .inr (.inl hmutex)
        | main => exact absurd rfl ht
    | test => exact .inl ⟨_, by simp only [mainStep, hat]; rfl⟩
    | copy executorsCount =>
      simp only [hat] at hcopied
      by_cases hlt : c.main.executors.length < executorsCount
      · obtain ⟨executor, hslot⟩ := hf.slot (hcopied.1 ▸ hlt)
        exact .inl ⟨_, by simp only [mainStep, hat, hlt, hslot, if_true]; rfl⟩
      · exact .inl ⟨_, by simp only [mainStep, hat, hlt, if_false]; rfl⟩
    | unlock => exact .inl ⟨_, by simp only [mainStep, hat]; rfl⟩
    | run =>
      simp only [hat] at hcopied
      left
      cases hexecutors : c.main.executors with
      | nil => exact ⟨_, by simp only [mainStep, hat, hexecutors]; rfl⟩
      | cons executor executors =>
        obtain ⟨m', -, -, -, -, hshared⟩ : ∃ m', m.step rand .runExecutor = .ok m' ∧ _ :=
          Main.shared_run hf.safe (hcopied ▸ hexecutors) c.inHand
        have hstep : c.main.step rand .runExecutor = .ok (m'.shared c.inHand executors) := by
          rw [hf.main, hexecutors]
          exact hshared
        exact ⟨_, by simp only [mainStep, hat, hexecutors, hstep]; rfl⟩
    | receive => exact .inr (.inr rfl)

/-- The executors of the first numbers queued, those of the first of them have
been run. -/
theorem begun_numbered {rand : Nat → UInt32} {m : Main} {bs : List Main.Act} {n : Nat}
    (h : Runs (Main.Steps rand) Main.init bs m) (hqueued : bs.filterMap Main.Act.queued? = numbered n) :
    ∃ k, k ≤ n ∧ Network.begun m.sent = numbered k := by
  obtain ⟨waiting, horder, -⟩ := Main.runs_in_order h
  refine ⟨min (Network.begun m.sent).length n, Nat.min_le_right .., ?_⟩
  have htake := congrArg (List.take (Network.begun m.sent).length) (hqueued.symm.trans horder)
  rw [List.take_left, numbered, ← List.map_take, List.take_range] at htake
  exact htake.symm

/-- **The two threads do what the loop does.** In every interleaving the array
has room for what is stored, every slot is written before it is read, neither
thread stops but for the mutex, and what `main` has sent and received is what the
loop of `MainLoop` has after some run: there the executors of the numbers from 1
are queued, and have been run once each and in that order as far as they have. -/
theorem threads_follow {rand : Nat → UInt32} {c : Threads} {as : List Act}
    (h : Runs (ofPartial (step rand)) init as c) :
    (∃ bs m, Runs (Main.Steps rand) Main.init bs m ∧ (∃ n, bs.filterMap Main.Act.queued? = numbered n) ∧
      m.sent = c.main.sent ∧ m.successes = c.main.successes ∧ m.requestListeners = c.main.requestListeners) ∧
    (∃ n, Network.begun c.main.sent = numbered n) ∧
    c.executorQueueOffset ≤ 900 ∧
    ((∃ c', c.clientStep = some c') ∨ c.mutex = some .main ∨ 100000 ≤ c.i) ∧
    ((∃ c', c.mainStep rand = some c') ∨ c.mutex = some .client ∨ c.mainAt = .receive) := by
  obtain ⟨bs, m, hruns, hf, hqueued⟩ := Follows.runs h
  have hsent : m.sent = c.main.sent := by
    rw [hf.main]
    rfl
  refine ⟨⟨bs, m, hruns, ⟨_, hqueued⟩, hsent, ?_, ?_⟩, ?_, hf.room, hf.enabled rand⟩
  · rw [hf.main]
    rfl
  · rw [hf.main]
    rfl
  · obtain ⟨k, -, hbegun⟩ := begun_numbered hruns hqueued
    exact ⟨k, hsent ▸ hbegun⟩

/-- The first number's executor is stored, copied and run. -/
theorem threads_follow_one :
    ∃ c, Runs (ofPartial (step UInt32.ofNat)) init
        [.client, .client, .client, .client, .main, .main, .main, .main, .main, .main] c ∧
      c.main.sent.length = 1 ∧ ∃ n, Network.begun c.main.sent = numbered n := by
  have hrun : Runs (ofPartial (step UInt32.ofNat)) init
      [.client, .client, .client, .client, .main, .main, .main, .main, .main, .main] _ :=
    .cons rfl (.cons rfl (.cons rfl (.cons rfl (.cons rfl (.cons rfl (.cons rfl (.cons rfl (.cons rfl (.cons rfl
      .nil)))))))))
  exact ⟨_, hrun, rfl, (threads_follow hrun).2.1⟩

end Threads

end Client

end Zql
