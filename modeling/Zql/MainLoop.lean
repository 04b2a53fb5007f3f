/-
The client's main loop: executors are put into a queue by another thread,
run one after the other, and called back through `requestListeners` by the
messages that come in, under ids drawn with `rand()`.

An executor is registered under one id at most, erases that in each of its
callbacks, and deletes itself when its insert is acknowledged. Whatever ids
`rand()` returns, and whatever comes in under whichever id, nothing calls an
executor that has deleted itself (`finished_never_called`): an id drawn
twice loses the executor that was registered under it, not more.
-/
import Zql.Client
import Zql.Reading
import Zql.ObjectParser
import Zql.Lib.Runs

namespace Zql

open Looping Transition

def Wrapper.id : Wrapper → UInt32
  | .request wrapper => wrapper.id
  | .response wrapper => wrapper.id

/-- `std::map<unsigned int, ObjectListener *>`: executors by their addresses. -/
abbrev RequestListeners := Std.ExtTreeMap UInt32 (Option Nat)

namespace Client

/-- The executors stand where they were allocated, and `none` is left of one
that has deleted itself: no address is given out twice. -/
structure Main where
  heap : List (Option InsertExecutor)
  requestListeners : RequestListeners
  executorQueue : List Nat
  /-- Those `main` has taken from the queue and has still to run. -/
  executors : List Nat
  sent : List RequestWrapper
  /-- Whose `OnSuccess` has been called. -/
  successes : List Nat
  /-- How often `rand()` has been called. -/
  drawn : Nat

/-- A call of an executor that has deleted itself. -/
structure Deleted where
  executor : Nat

namespace Main

def init : Main := ⟨[], ∅, [], [], [], [], 0⟩

/-- What a pointer to an executor points to. -/
def executor (m : Main) (a : Nat) : Except Deleted InsertExecutor :=
  match m.heap[a]? with
  | some (some e) => .ok e
  | _ => .error ⟨a⟩

/-- A request goes out under a drawn id, and the executor is registered
under it. -/
def send (rand : Nat → UInt32) (m : Main) (a : Nat) (request : Request) : Main :=
  let requestId := rand m.drawn
  { m with
    requestListeners := m.requestListeners.insert requestId (some a)
    sent := m.sent ++ [⟨requestId, request⟩]
    drawn := m.drawn + 1 }

/-- `InsertExecutor::Run`. -/
def run (rand : Nat → UInt32) (m : Main) (a : Nat) : Except Deleted Main :=
  (m.executor a).map fun e => m.send rand a (.add e.run)

def onResponseAddOk (m : Main) (a : Nat) (requestId : UInt32) : Main :=
  { m with
    requestListeners := m.requestListeners.erase requestId
    successes := m.successes ++ [a]
    heap := m.heap.set a none }

def onResponseAddTraverse (rand : Nat → UInt32) (m : Main) (a : Nat) (e : InsertExecutor) (requestId : UInt32)
    (response : ResponseAddTraverse) : Main :=
  { m with requestListeners := m.requestListeners.erase requestId }.send rand a
    (.addContinue (e.onResponseAddTraverse response))

/-- `requestListeners[requestId]`: a missing key gets a null pointer. -/
def listener (m : Main) (requestId : UInt32) : Main × Option Nat :=
  match m.requestListeners[requestId]? with
  | some listener => (m, listener)
  | none => ({ m with requestListeners := m.requestListeners.insert requestId none }, none)

/-- The executor's own method for a message. The others do nothing. -/
def callback (rand : Nat → UInt32) (m : Main) (a : Nat) (e : InsertExecutor) : Wrapper → Main
  | .response ⟨requestId, .addOk⟩ => m.onResponseAddOk a requestId
  | .response ⟨requestId, .addTraverse response⟩ => m.onResponseAddTraverse rand a e requestId response
  | _ => m

/-- `GlobalResponseListener`. -/
def call (rand : Nat → UInt32) (m : Main) : ObjectCall → Except Deleted Main
  | .error _ => .ok m
  | .message wrapper =>
    match m.listener wrapper.id with
    | (m, none) => .ok m
    | (m, some a) => (m.executor a).map fun e => m.callback rand a e wrapper

inductive Act
  /-- `send_request`, in the client's thread. -/
  | addExecutor (database table : Str) (row : Row)
  /-- `main` copies the queue and empties it. -/
  | takeQueue
  /-- It runs the next executor. -/
  | runExecutor
  /-- Its parser calls `GlobalResponseListener`. -/
  | receive (call : ObjectCall)

def step (rand : Nat → UInt32) (m : Main) : Act → Except Deleted Main
  | .addExecutor database table row =>
    .ok { m with
      heap := m.heap ++ [some (.new database table row)]
      executorQueue := m.executorQueue ++ [m.heap.length] }
  | .takeQueue => .ok { m with executors := m.executors ++ m.executorQueue, executorQueue := [] }
  | .runExecutor =>
    match m.executors with
    | [] => .ok m
    | a :: executors => { m with executors }.run rand a
  | .receive call => m.call rand call

/-- The steps that call no deleted executor. -/
def Steps (rand : Nat → UInt32) : Step Main Act := fun m a m' => m.step rand a = .ok m'

/-! ## The invariant -/

/-- The executor has not deleted itself. -/
def Live (m : Main) (a : Nat) : Prop := ∃ e, m.heap[a]? = some (some e)

structure Safe (m : Main) : Prop where
  registered : ∀ (id : UInt32) a, m.requestListeners[id]? = some (some a) →
    m.Live a ∧ a ∉ m.executors ++ m.executorQueue
  once : ∀ (id id' : UInt32) a, m.requestListeners[id]? = some (some a) → m.requestListeners[id']? = some (some a) →
    id = id'
  queued : ∀ a ∈ m.executors ++ m.executorQueue, m.Live a
  apart : (m.executors ++ m.executorQueue).Nodup
  done : ∀ a ∈ m.successes, m.heap[a]? = some none
  successes : m.successes.Nodup

theorem Safe.init : init.Safe := by
  constructor <;> simp [Main.init]

theorem Live.executor {m : Main} {a : Nat} (h : m.Live a) : ∃ e, m.executor a = .ok e := by
  obtain ⟨e, he⟩ := h
  exact ⟨e, by simp only [Main.executor, he]⟩

theorem Safe.live_ne {m : Main} (hs : m.Safe) {a b : Nat} (ha : m.Live a) (hb : b ∈ m.successes) : a ≠ b := by
  rintro rfl
  obtain ⟨e, he⟩ := ha
  rw [hs.done a hb] at he
  cases he

/-- **A request sent** by an executor that is not registered and not to be
run again registers it under one id. -/
theorem Safe.send {rand : Nat → UInt32} {m : Main} (hs : m.Safe) {a : Nat} (hlive : m.Live a)
    (hnew : ∀ id : UInt32, m.requestListeners[id]? ≠ some (some a)) (hnot : a ∉ m.executors ++ m.executorQueue)
    (request : Request) : (m.send rand a request).Safe := by
  have hcases : ∀ (id : UInt32) b, (m.send rand a request).requestListeners[id]? = some (some b) →
      id = rand m.drawn ∧ b = a ∨ id ≠ rand m.drawn ∧ m.requestListeners[id]? = some (some b) := by
    intro id b hb
    simp only [Main.send, getElem?_insert_if] at hb
    split at hb
    · next hid => exact .inl ⟨hid, by simpa using hb.symm⟩
    · next hid => exact .inr ⟨hid, hb⟩
  refine ⟨fun id b hb => ?_, fun id id' b hb hb' => ?_, hs.queued, hs.apart, hs.done, hs.successes⟩
  · rcases hcases id b hb with ⟨-, rfl⟩ | ⟨-, hb⟩
    · exact ⟨hlive, hnot⟩
    · exact hs.registered id b hb
  · rcases hcases id b hb with ⟨hid, rfl⟩ | ⟨-, hold⟩
    · rcases hcases id' b hb' with ⟨hid', -⟩ | ⟨-, hold'⟩
      · rw [hid, hid']
      · exact absurd hold' (hnew id')
    · rcases hcases id' b hb' with ⟨-, rfl⟩ | ⟨-, hold'⟩
      · exact absurd hold (hnew id)
      · exact hs.once id id' b hold hold'

/-- Looking a listener up registers none. -/
theorem listener_registered (m : Main) (requestId id : UInt32) (a : Nat) :
    (m.listener requestId).1.requestListeners[id]? = some (some a) ↔ m.requestListeners[id]? = some (some a) := by
  unfold listener
  split
  · rfl
  next hnone =>
  simp only [getElem?_insert_if]
  split
  · next hid => simp [hid, hnone]
  · rfl

theorem Safe.listener {m : Main} (hs : m.Safe) (requestId : UInt32) : (m.listener requestId).1.Safe := by
  have hlookup := m.listener_registered requestId
  have hrest : (m.listener requestId).1.heap = m.heap ∧ (m.listener requestId).1.executors = m.executors ∧
      (m.listener requestId).1.executorQueue = m.executorQueue ∧
      (m.listener requestId).1.successes = m.successes := by
    unfold Main.listener
    split <;> exact ⟨rfl, rfl, rfl, rfl⟩
  obtain ⟨hheap, hexecutors, hqueue, hsuccesses⟩ := hrest
  refine ⟨fun id a ha => ?_, fun id id' a ha ha' => ?_, ?_, ?_, ?_, ?_⟩
  · rw [Live, hheap, hexecutors, hqueue]
    exact hs.registered id a ((hlookup id a).mp ha)
  · exact hs.once id id' a ((hlookup id a).mp ha) ((hlookup id' a).mp ha')
  · rw [hexecutors, hqueue]
    intro a ha
    rw [Live, hheap]
    exact hs.queued a ha
  · rw [hexecutors, hqueue]
    exact hs.apart
  · rw [hheap, hsuccesses]
    exact hs.done
  · rw [hsuccesses]
    exact hs.successes

theorem listener_some {m m' : Main} {requestId : UInt32} {a : Nat} (h : m.listener requestId = (m', some a)) :
    m'.requestListeners[requestId]? = some (some a) := by
  unfold listener at h
  split at h
  · next hsome =>
    cases h
    exact hsome
  · cases h

theorem erase_some {listeners : RequestListeners} {requestId id : UInt32} {a : Nat} :
    (listeners.erase requestId)[id]? = some (some a) ↔ id ≠ requestId ∧ listeners[id]? = some (some a) := by
  rw [Std.ExtTreeMap.getElem?_erase]
  by_cases hid : id = requestId
  · simp [hid]
  · rw [if_neg fun hc => hid (Std.compare_eq_iff_eq.mp hc).symm]
    simp [hid]

/-- **An insert acknowledged**: its executor leaves the map, and is gone. -/
theorem Safe.onResponseAddOk {m : Main} (hs : m.Safe) {a : Nat} {requestId : UInt32}
    (ha : m.requestListeners[requestId]? = some (some a)) : (m.onResponseAddOk a requestId).Safe := by
  obtain ⟨hlive, hnot⟩ := hs.registered requestId a ha
  have hother : ∀ b, b ≠ a → m.Live b → (m.onResponseAddOk a requestId).Live b := by
    rintro b hb ⟨e, he⟩
    exact ⟨e, (List.getElem?_set_ne (Ne.symm hb)).trans he⟩
  refine ⟨fun id b hb => ?_, fun id id' b hb hb' => ?_, fun b hb => ?_, hs.apart, fun b hb => ?_, ?_⟩
  · obtain ⟨hid, hb⟩ := erase_some.mp hb
    obtain ⟨hliveb, hnotb⟩ := hs.registered id b hb
    refine ⟨hother b (fun he => ?_) hliveb, hnotb⟩
    rw [he] at hb
    exact hid (hs.once id requestId a hb ha)
  · exact hs.once id id' b (erase_some.mp hb).2 (erase_some.mp hb').2
  · refine hother b (fun he => ?_) (hs.queued b hb)
    rw [he] at hb
    exact hnot hb
  · show (m.heap.set a none)[b]? = some none
    rcases List.mem_append.mp hb with hb | hb
    · rw [List.getElem?_set_ne (hs.live_ne hlive hb), hs.done b hb]
    · obtain rfl := List.mem_singleton.mp hb
      obtain ⟨e, he⟩ := hlive
      rw [List.getElem?_set_self (List.getElem?_eq_some_iff.mp he).1]
  · refine List.nodup_append.mpr ⟨hs.successes, by simp, fun b hb c hc => ?_⟩
    obtain rfl := List.mem_singleton.mp hc
    exact (hs.live_ne hlive hb).symm

/-- **A traversal's step answered**: its executor moves to a new id. -/
theorem Safe.onResponseAddTraverse {rand : Nat → UInt32} {m : Main} (hs : m.Safe) {a : Nat} {requestId : UInt32}
    (ha : m.requestListeners[requestId]? = some (some a)) (e : InsertExecutor) (response : ResponseAddTraverse) :
    (m.onResponseAddTraverse rand a e requestId response).Safe := by
  obtain ⟨hlive, hnot⟩ := hs.registered requestId a ha
  have herased : Safe { m with requestListeners := m.requestListeners.erase requestId } :=
    ⟨fun id b hb => hs.registered id b (erase_some.mp hb).2,
      fun id id' b hb hb' => hs.once id id' b (erase_some.mp hb).2 (erase_some.mp hb').2, hs.queued, hs.apart, hs.done,
      hs.successes⟩
  refine herased.send hlive (fun id hid => ?_) hnot _
  obtain ⟨hne, hid⟩ := erase_some.mp hid
  exact hne (hs.once id requestId a hid ha)

/-- **Every call of `GlobalResponseListener` finds its executor alive.** -/
theorem Safe.call {rand : Nat → UInt32} {m : Main} (hs : m.Safe) (c : ObjectCall) :
    ∃ m', m.call rand c = .ok m' ∧ m'.Safe := by
  cases c with
  | error _ => exact ⟨m, rfl, hs⟩
  | message wrapper =>
    have hsafe := hs.listener wrapper.id
    cases hl : m.listener wrapper.id with | mk m₁ found =>
    rw [hl] at hsafe
    cases found with
    | none => exact ⟨m₁, by simp only [Main.call, hl], hsafe⟩
    | some a =>
      have ha := listener_some hl
      obtain ⟨e, he⟩ := (hsafe.registered _ a ha).1.executor
      refine ⟨m₁.callback rand a e wrapper, by simp only [Main.call, hl, he]; rfl, ?_⟩
      unfold callback
      split
      · exact hsafe.onResponseAddOk ha
      · exact hsafe.onResponseAddTraverse ha e _
      · exact hsafe

/-- **Every step finds its executor alive.** -/
theorem Safe.step {rand : Nat → UInt32} {m : Main} (hs : m.Safe) (a : Act) :
    ∃ m', m.step rand a = .ok m' ∧ m'.Safe := by
  cases a with
  | addExecutor database table row =>
    have hnew : ∀ b, m.Live b → b ≠ m.heap.length := by
      rintro b ⟨e, he⟩
      exact Nat.ne_of_lt (List.getElem?_eq_some_iff.mp he).1
    have hold : ∀ b, m.Live b → ∃ e, (m.heap ++ [some (InsertExecutor.new database table row)])[b]? = some (some e) := by
      rintro b ⟨e, he⟩
      exact ⟨e, by rw [List.getElem?_append_left (List.getElem?_eq_some_iff.mp he).1, he]⟩
    refine ⟨_, rfl, fun id b hb => ?_, hs.once, fun b hb => ?_, ?_, fun b hb => ?_, hs.successes⟩
    · obtain ⟨hlive, hnot⟩ := hs.registered id b hb
      refine ⟨hold b hlive, fun hmem => ?_⟩
      rw [← List.append_assoc, List.mem_append, List.mem_singleton] at hmem
      exact hmem.elim hnot (hnew b hlive)
    · rw [← List.append_assoc, List.mem_append, List.mem_singleton] at hb
      rcases hb with hb | rfl
      · exact hold b (hs.queued b hb)
      · exact ⟨_, List.getElem?_concat_length⟩
    · rw [← List.append_assoc]
      refine List.nodup_append.mpr ⟨hs.apart, by simp, fun b hb c hc => ?_⟩
      obtain rfl := List.mem_singleton.mp hc
      exact hnew b (hs.queued b hb)
    · have hdone := hs.done b hb
      show (m.heap ++ [_])[b]? = some none
      rw [List.getElem?_append_left (List.getElem?_eq_some_iff.mp hdone).1, hdone]
  | takeQueue =>
    refine ⟨_, rfl, fun id b hb => ?_, hs.once, fun b hb => ?_, ?_, hs.done, hs.successes⟩
    · obtain ⟨hlive, hnot⟩ := hs.registered id b hb
      exact ⟨hlive, by simpa using hnot⟩
    · exact hs.queued b (by simpa using hb)
    · simpa using hs.apart
  | runExecutor =>
    cases hm : m.executors with
    | nil => exact ⟨m, by simp only [Main.step, hm], hs⟩
    | cons a executors =>
      have hmem : a ∈ m.executors ++ m.executorQueue := by simp [hm]
      have hapart := hs.apart
      rw [hm, List.cons_append, List.nodup_cons] at hapart
      have hrest : Safe { m with executors } :=
        ⟨fun id b hb => ?_, hs.once, fun b hb => ?_, hapart.2, hs.done, hs.successes⟩
      · obtain ⟨e, he⟩ : ∃ e, Main.executor { m with executors } a = .ok e := (hs.queued a hmem).executor
        refine ⟨_, by simp only [Main.step, hm, Main.run, he]; rfl, ?_⟩
        exact hrest.send (hs.queued a hmem) (fun id hid => (hs.registered id a hid).2 hmem) hapart.1 _
      · obtain ⟨hlive, hnot⟩ := hs.registered id b hb
        refine ⟨hlive, fun hin => hnot ?_⟩
        rw [hm, List.cons_append]
        exact List.mem_cons_of_mem _ hin
      · refine hs.queued b ?_
        rw [hm, List.cons_append]
        exact List.mem_cons_of_mem _ hb
  | receive c => exact hs.call c

theorem Safe.reached {rand : Nat → UInt32} {m : Main} {as : List Act} (h : Runs (Steps rand) Main.init as m) : m.Safe := by
  refine h.invariant (fun m a m' hs hstep => ?_) Safe.init
  obtain ⟨m₁, hm₁, hs₁⟩ : ∃ m', m.step rand a = .ok m' ∧ m'.Safe := hs.step a
  obtain rfl : m' = m₁ := Except.ok.inj (Eq.trans (Eq.symm hstep) hm₁)
  exact hs₁

theorem runs_foldlM {rand : Nat → UInt32} {m m' : Main} {as : List Act} (h : as.foldlM (step rand) m = .ok m') :
    Runs (Steps rand) m as m' := by
  induction as generalizing m with
  | nil =>
    cases h
    exact .nil
  | cons a as ih =>
    rw [List.foldlM_cons] at h
    cases hm : m.step rand a with
    | ok m₁ =>
      rw [hm] at h
      exact (ih h).cons hm
    | error deleted =>
      rw [hm] at h
      cases h

/-! ## Messages -/

/-- **A parse is a run of calls**, up to the end of the parse or to a call
that goes wrong. -/
theorem parse_calls {rand : Nat → UInt32} {fuel : Nat} {r : CborReader} {p : ObjectParser} {m : Main}
    {result : Except (ObjectParser.Failure Deleted) (CborEnd × ObjectParser × Main)}
    (h : CborReader.run (ObjectParser.listen (Main.call rand)) fuel r (p, m) = some result) :
    ∃ (calls : List ObjectCall) (m' : Main), Runs (Steps rand) m (calls.map .receive) m' ∧
      ((∃ e p', result = .ok (e, p', m')) ∨ result = .error .badCast ∨
        ∃ c deleted, result = .error (.listener deleted) ∧ m'.call rand c = .error deleted) := by
  induction fuel generalizing r p m with
  | zero => cases h
  | succ fuel ih =>
    cases hp : r.pass with
    | leave e =>
      rw [CborReader.run, loop_leave (CborReader.body_leave _ hp)] at h
      cases h
      exact ⟨[], m, .nil, .inl ⟨e, p, rfl⟩⟩
    | again s =>
      obtain ⟨r', none | event⟩ := s
      · rw [CborReader.run, loop_again (CborReader.body_quiet _ hp)] at h
        exact ih h
      cases hon : p.on event with
      | none =>
        have hlisten : ObjectParser.listen (Main.call rand) (p, m) event = .error .badCast := by
          simp only [ObjectParser.listen, hon]
        rw [CborReader.run, loop_leave (CborReader.body_error hp hlisten)] at h
        cases h
        exact ⟨[], m, .nil, .inr (.inl rfl)⟩
      | some s =>
        obtain ⟨p', none | c⟩ := s
        · have hlisten : ObjectParser.listen (Main.call rand) (p, m) event = .ok (p', m) := by
            simp only [ObjectParser.listen, hon]
          rw [CborReader.run, loop_again (CborReader.body_call hp hlisten)] at h
          exact ih h
        cases hcall : m.call rand c with
        | ok m' =>
          have hlisten : ObjectParser.listen (Main.call rand) (p, m) event = .ok (p', m') := by
            simp only [ObjectParser.listen, hon, hcall]
          rw [CborReader.run, loop_again (CborReader.body_call hp hlisten)] at h
          obtain ⟨calls, m'', hruns, hresult⟩ := ih h
          exact ⟨c :: calls, m'', hruns.cons (a := .receive c) hcall, hresult⟩
        | error deleted =>
          have hlisten : ObjectParser.listen (Main.call rand) (p, m) event = .error (.listener deleted) := by
            simp only [ObjectParser.listen, hon, hcall]
          rw [CborReader.run, loop_leave (CborReader.body_error hp hlisten)] at h
          cases h
          exact ⟨[], m, .nil, .inr (.inr ⟨c, deleted, rfl, hcall⟩)⟩

/-- **The client never calls a finished executor**: every step from a state
it reaches finds its executor alive, and so does every call of a parse.
`OnSuccess` is called once for an executor, and an executor is registered
under one id. -/
theorem finished_never_called {rand : Nat → UInt32} {as : List Act} {m : Main}
    (h : Runs (Steps rand) Main.init as m) :
    (∀ a, ∃ m', m.step rand a = .ok m') ∧ m.successes.Nodup ∧
      (∀ (id id' : UInt32) a, m.requestListeners[id]? = some (some a) →
        m.requestListeners[id']? = some (some a) → id = id') ∧
      ∀ fuel p data deleted, ObjectParser.run (Main.call rand) fuel p data m ≠ some (.error (.listener deleted)) := by
  have hs := Safe.reached h
  refine ⟨fun a => ?_, hs.successes, hs.once, fun fuel p data deleted hrun => ?_⟩
  · obtain ⟨m', hm', -⟩ : ∃ m', m.step rand a = .ok m' ∧ m'.Safe := hs.step a
    exact ⟨m', hm'⟩
  · obtain ⟨calls, m', hruns, hresult⟩ := parse_calls hrun
    rcases hresult with ⟨e, p', heq⟩ | heq | ⟨c, deleted', -, hcall⟩
    · cases heq
    · cases heq
    · obtain ⟨m'', hm'', -⟩ : ∃ m'', m'.call rand c = .ok m'' ∧ m''.Safe := (Safe.reached (h.append hruns)).call c
      rw [hm''] at hcall
      cases hcall

/-- Two executors under the same id: the second is acknowledged, twice, and
the first never. -/
theorem finished_never_called_twice :
    ∃ m, Runs (Steps fun _ => 7) Main.init [.addExecutor [] [] ∅, .addExecutor [] [] ∅, .takeQueue, .runExecutor,
        .runExecutor, .receive (.message (.response ⟨7, .addOk⟩)), .receive (.message (.response ⟨7, .addOk⟩))] m ∧
      m.successes = [1] ∧ m.successes.Nodup := by
  have hruns : Runs (Steps fun _ => 7) Main.init [.addExecutor [] [] ∅, .addExecutor [] [] ∅, .takeQueue, .runExecutor,
      .runExecutor, .receive (.message (.response ⟨7, .addOk⟩)), .receive (.message (.response ⟨7, .addOk⟩))] _ :=
    runs_foldlM rfl
  exact ⟨_, hruns, rfl, (finished_never_called hruns).2.1⟩

end Main

end Client

end Zql
