/-
Who gives requests and traversals back. The parser makes a request for each
message, and `OnRequestAdd` a traversal that keeps its request; the only ones ever
deleted are the traversal that `removeTraverse` finds, and the request it keeps.
Under its own id that would be the traversal just ended, but it looks under the id
of the last message.

`removeTraverse` erases the entry of its map first and reads the pointer to delete
from the erased entry then: what that gives is an input of the step. As long as it
gives what the entry held, nothing is used or deleted once it is gone, and where no
id comes twice nothing is given back at all (`memory_safe`).
-/
import Zql.Service

namespace Zql

open Transition

/-- A pointer to a traversal: the one it points to, `none` for null. -/
abbrev Memory.Pointer := Option Nat

structure Memory where
  /-- The requests parsed: whether each is still there. -/
  requests : List Bool
  /-- The traversals made: the request each keeps, `none` of one that is gone. -/
  traverses : List (Option Nat)
  /-- The entries of the holder's map. -/
  holder : UInt32 → Option Memory.Pointer
  /-- The uses and deletions: whether what they were of was there. -/
  accesses : List Bool
  /-- The messages' ids. -/
  ids : List UInt32

namespace Memory

def init : Memory := ⟨[], [], fun _ => none, [], []⟩

/-- A message has been parsed. -/
def parse (m : Memory) (id : UInt32) : Memory := { m with requests := m.requests ++ [true], ids := m.ids ++ [id] }

/-- The traversal is there, with its request. -/
def there (m : Memory) (traverse : Nat) : Bool :=
  match m.traverses[traverse]?.join with
  | some request => m.requests[request]? = some true
  | none => false

/-- `getTraverse`, which makes a null entry where there is none. -/
def get (m : Memory) (id : UInt32) : Memory :=
  match m.holder id with
  | some _ => m
  | none => { m with holder := Function.update m.holder id (some none) }

/-- The traversal of an id is used, and its request. -/
def access (m : Memory) (id : UInt32) : Memory :=
  { m with accesses := m.accesses ++ [(m.holder id).join.any m.there] }

/-- `createTraverse`, and the request stored into it. -/
def create (m : Memory) (id : UInt32) (request : Nat) : Memory :=
  { m with
    traverses := m.traverses ++ [some request]
    holder := Function.update m.holder id (some (some m.traverses.length)) }

/-- `delete` of a traversal, with its destructor. What is neither a traversal nor
null is not there. -/
def delete (m : Memory) : Option Pointer → Memory
  | none => { m with accesses := m.accesses ++ [false] }
  | some none => m
  | some (some traverse) =>
    { m with
      accesses := m.accesses ++ [m.there traverse]
      requests := match m.traverses[traverse]?.join with
        | some request => m.requests.set request false
        | none => m.requests
      traverses := m.traverses.set traverse none }

/-- `removeTraverse`. The entry is erased, and read. -/
def remove (erased : Option Pointer) (m : Memory) (id : UInt32) : Memory :=
  match m.holder id with
  | none => m
  | some _ => { m with holder := Function.update m.holder id none }.delete erased

/-- What a handler does to them. -/
def observe (erased : Option Pointer) (m : Memory) (e : Exchange) : Memory :=
  match e.message with
  | .add id _ =>
    match e.response with
    | .addTraverse _ => (m.parse id).create id m.requests.length
    | _ => m.parse id
  | .addContinue id request =>
    let m := (m.parse id).get request.initRequestId
    match direction request.compareResult, e.response with
    | none, _ => m
    | some _, .addTraverse _ => m.access request.initRequestId
    | some _, _ => (m.access request.initRequestId).remove erased id

/-- The server takes a message, and `removeTraverse` reads an erased entry if it
erases one. -/
def step : Step (Server × Memory) ((Message × Env) × Option Pointer) :=
  fun s a => ofPartial (served (observe a.2)) s a.1

/-- The erased entry still gives what it held. -/
def Reads (s : Server × Memory) (a : (Message × Env) × Option Pointer) : Prop :=
  ∀ pointer, s.2.holder a.1.1.id = some pointer → a.2 = some pointer

theorem concat_cases {α : Type*} {l : List α} {a b : α} {i : Nat} (h : (l ++ [a])[i]? = some b) :
    l[i]? = some b ∨ i = l.length ∧ a = b := by
  rcases Nat.lt_or_ge i l.length with hlt | hge
  · exact .inl ((List.getElem?_append_left hlt).symm.trans h)
  · rw [List.getElem?_append_right hge, List.getElem?_singleton] at h
    split at h
    · exact .inr ⟨by omega, Option.some.inj h⟩
    · cases h

theorem count_set {α : Type*} [BEq α] [LawfulBEq α] {l : List α} {a b : α} {i : Nat} (h : l[i]? = some b)
    (hne : b ≠ a) : (l.set i a).count a = l.count a + 1 := by
  obtain ⟨hlt, hb⟩ := List.getElem?_eq_some_iff.mp h
  rw [List.count_set hlt, hb]
  simp [hne]

/-- Every id stands for a traversal of its own, that is there and keeps a request
of its own. -/
structure Sound (m : Memory) : Prop where
  stands : ∀ k i, m.holder k = some (some i) → k ∈ m.ids ∧ ∃ r, m.traverses[i]? = some (some r)
  apart : ∀ k k' i, m.holder k = some (some i) → m.holder k' = some (some i) → k = k'
  keeps : ∀ (i r : Nat), m.traverses[i]? = some (some r) → m.requests[r]? = some true
  alone : ∀ (i j r : Nat), m.traverses[i]? = some (some r) → m.traverses[j]? = some (some r) → i = j
  accesses : ∀ there ∈ m.accesses, there = true
  given : m.requests.count false = m.traverses.count none
  kept : m.ids.Nodup → none ∉ m.traverses

theorem Sound.init : Sound init where
  stands := by simp [Memory.init]
  apart := by simp [Memory.init]
  keeps := by simp [Memory.init]
  alone := by simp [Memory.init]
  accesses := by simp [Memory.init]
  given := rfl
  kept := by simp [Memory.init]

theorem Sound.parse {m : Memory} (hm : m.Sound) (id : UInt32) : (m.parse id).Sound where
  stands k i h := ⟨List.mem_append_left _ (hm.stands k i h).1, (hm.stands k i h).2⟩
  apart := hm.apart
  keeps i r h := by
    have hr := hm.keeps i r h
    exact (List.getElem?_append_left (List.getElem?_eq_some_iff.mp hr).1).trans hr
  alone := hm.alone
  accesses := hm.accesses
  given := by simpa [Memory.parse] using hm.given
  kept h := hm.kept (List.nodup_append.mp h).1

theorem Sound.there {m : Memory} (hm : m.Sound) {k : UInt32} {i : Nat} (h : m.holder k = some (some i)) :
    m.there i = true := by
  obtain ⟨-, r, hr⟩ := hm.stands k i h
  simp [Memory.there, hr, hm.keeps i r hr]

theorem Sound.get {m : Memory} (hm : m.Sound) (id : UInt32) : (m.get id).Sound := by
  unfold Memory.get
  split
  · exact hm
  · exact {
      stands k i h := by
        rcases update_cases h with ⟨-, hi⟩ | ⟨-, h⟩
        · cases hi
        · exact hm.stands k i h
      apart k k' i h h' := by
        rcases update_cases h with ⟨-, hi⟩ | ⟨-, h⟩
        · cases hi
        rcases update_cases h' with ⟨-, hi⟩ | ⟨-, h'⟩
        · cases hi
        · exact hm.apart k k' i h h'
      keeps := hm.keeps
      alone := hm.alone
      accesses := hm.accesses
      given := hm.given
      kept := hm.kept }

theorem get_holder {m : Memory} {id k : UInt32} {i : Nat} (h : m.holder k = some (some i)) :
    (m.get id).holder k = some (some i) := by
  unfold get
  split
  · exact h
  · next hnone =>
    have hne : k ≠ id := fun hk => by simp [hk, hnone] at h
    exact (Function.update_of_ne hne ..).trans h

theorem Sound.access {m : Memory} (hm : m.Sound) {id : UInt32} {i : Nat} (h : m.holder id = some (some i)) :
    (m.access id).Sound where
  stands := hm.stands
  apart := hm.apart
  keeps := hm.keeps
  alone := hm.alone
  accesses there hthere := by
    rcases List.mem_append.mp hthere with hold | hnew
    · exact hm.accesses there hold
    · rw [List.mem_singleton.mp hnew, h]
      exact hm.there h
  given := hm.given
  kept := hm.kept

theorem Sound.create {m : Memory} (hm : m.Sound) {id : UInt32} {request : Nat} (hid : id ∈ m.ids)
    (hthere : m.requests[request]? = some true) (hfree : ∀ i : Nat, m.traverses[i]? ≠ some (some request)) :
    (m.create id request).Sound where
  stands k i h := by
    rcases update_cases h with ⟨rfl, hi⟩ | ⟨-, h⟩
    · obtain rfl := Option.some.inj (Option.some.inj hi)
      exact ⟨hid, request, by simp [Memory.create]⟩
    · obtain ⟨hk, r, hr⟩ := hm.stands k i h
      exact ⟨hk, r, (List.getElem?_append_left (List.getElem?_eq_some_iff.mp hr).1).trans hr⟩
  apart k k' i h h' := by
    have hlt : ∀ k, m.holder k = some (some i) → i < m.traverses.length := fun k hk =>
      (List.getElem?_eq_some_iff.mp (hm.stands k i hk).2.choose_spec).1
    rcases update_cases h with ⟨rfl, hi⟩ | ⟨-, h⟩
    · obtain rfl := Option.some.inj (Option.some.inj hi)
      rcases update_cases h' with ⟨rfl, -⟩ | ⟨-, h'⟩
      · rfl
      · exact absurd (hlt k' h') (Nat.lt_irrefl _)
    · rcases update_cases h' with ⟨-, hi⟩ | ⟨-, h'⟩
      · obtain rfl := Option.some.inj (Option.some.inj hi)
        exact absurd (hlt k h) (Nat.lt_irrefl _)
      · exact hm.apart k k' i h h'
  keeps i r h := by
    rcases concat_cases h with h | ⟨-, hr⟩
    · exact hm.keeps i r h
    · obtain rfl := Option.some.inj hr
      exact hthere
  alone i j r h h' := by
    rcases concat_cases h with h | ⟨rfl, hr⟩
    · rcases concat_cases h' with h' | ⟨-, hr⟩
      · exact hm.alone i j r h h'
      · obtain rfl := Option.some.inj hr
        exact absurd h (hfree i)
    · obtain rfl := Option.some.inj hr
      rcases concat_cases h' with h' | ⟨rfl, -⟩
      · exact absurd h' (hfree j)
      · rfl
  accesses := hm.accesses
  given := by simpa [Memory.create] using hm.given
  kept h := by simpa [Memory.create] using hm.kept h

theorem Sound.erase {m : Memory} (hm : m.Sound) (id : UInt32) :
    ({ m with holder := Function.update m.holder id none } : Memory).Sound where
  stands k i h := by
    rcases update_cases h with ⟨-, hi⟩ | ⟨-, h⟩
    · cases hi
    · exact hm.stands k i h
  apart k k' i h h' := by
    rcases update_cases h with ⟨-, hi⟩ | ⟨-, h⟩
    · cases hi
    rcases update_cases h' with ⟨-, hi⟩ | ⟨-, h'⟩
    · cases hi
    · exact hm.apart k k' i h h'
  keeps := hm.keeps
  alone := hm.alone
  accesses := hm.accesses
  given := hm.given
  kept := hm.kept

/-- A traversal no entry stands for is deleted, and nothing is left that keeps its
request. -/
theorem Sound.delete {m : Memory} (hm : m.Sound) {i r : Nat} (hr : m.traverses[i]? = some (some r))
    (hfree : ∀ k, m.holder k ≠ some (some i)) (hids : ¬ m.ids.Nodup) : (m.delete (some (some i))).Sound := by
  have hothers : ∀ j r', (m.traverses.set i none)[j]? = some (some r') → i ≠ j ∧ m.traverses[j]? = some (some r') := by
    intro j r' hj
    rw [List.getElem?_set] at hj
    split at hj
    · split at hj <;> cases hj
    next hne => exact ⟨hne, hj⟩
  simp only [Memory.delete, hr, Option.join_some]
  exact {
    stands k j hj := by
      obtain ⟨hk, r', hr'⟩ := hm.stands k j hj
      have hij : i ≠ j := fun h => hfree k (h ▸ hj)
      exact ⟨hk, r', (List.getElem?_set_ne hij).trans hr'⟩
    apart := hm.apart
    keeps j r' hj := by
      obtain ⟨hij, hj⟩ := hothers j r' hj
      have hne : r ≠ r' := fun h => hij (hm.alone i j r hr (h ▸ hj))
      exact (List.getElem?_set_ne hne).trans (hm.keeps j r' hj)
    alone j j' r' hj hj' := hm.alone j j' r' (hothers j r' hj).2 (hothers j' r' hj').2
    accesses there hthere := by
      rcases List.mem_append.mp hthere with hold | hnew
      · exact hm.accesses there hold
      · rw [List.mem_singleton.mp hnew]
        simp [Memory.there, hr, hm.keeps i r hr]
    given := by
      rw [count_set (hm.keeps i r hr) (by decide), count_set hr (by simp), hm.given]
    kept h := absurd h hids }

theorem Sound.remove {m : Memory} (hm : m.Sound) {erased : Option Pointer} {id : UInt32}
    (hreads : ∀ pointer, m.holder id = some pointer → erased = some pointer)
    (hid : ∀ i, m.holder id = some (some i) → ¬ m.ids.Nodup) : (m.remove erased id).Sound := by
  unfold Memory.remove
  split
  · exact hm
  next pointer hpointer =>
  rw [hreads pointer hpointer]
  cases pointer with
  | none => exact hm.erase id
  | some i =>
    obtain ⟨-, r, hr⟩ := hm.stands id i hpointer
    refine (hm.erase id).delete hr (fun k hk => ?_) (hid i hpointer)
    rcases update_cases hk with ⟨-, hk⟩ | ⟨hne, hk⟩
    · cases hk
    · exact hne (hm.apart k id i hk hpointer)

/-- Where the server holds a traversal, an entry stands for one. -/
structure Owned (s : Server × Memory) : Prop where
  sound : s.2.Sound
  held : ∀ k t, s.1.holder.traverses[k]? = some (some t) → ∃ i, s.2.holder k = some (some i)

theorem Owned.init : Owned (Server.init, init) where
  sound := .init
  held := by simp [Server.init]

theorem delete_holder (m : Memory) (pointer : Option Pointer) : (m.delete pointer).holder = m.holder := by
  unfold delete
  split <;> rfl

theorem remove_holder {m : Memory} {erased : Option Pointer} {id k : UInt32} (hne : k ≠ id) :
    (m.remove erased id).holder k = m.holder k := by
  unfold remove
  split
  · rfl
  · rw [delete_holder]
    exact Function.update_of_ne hne ..

theorem Owned.added {erased : Option Pointer} {env : Env} {s s' : Server} {m : Memory} {id : UInt32}
    {request : RequestAdd} {response : Response} (ho : Owned (s, m)) (h : Added env s id request s' response) :
    Owned (s', observe erased m ⟨env, .add id request, s, response, s'⟩) := by
  have hm := ho.sound.parse id
  cases h with
  | plain _ => exact ⟨hm, ho.held⟩
  | root _ _ => exact ⟨hm, ho.held⟩
  | started _ _ _ =>
    refine ⟨hm.create (by simp [parse]) List.getElem?_concat_length fun i hi => ?_, fun k t ht => ?_⟩
    · exact absurd (List.getElem?_eq_some_iff.mp (ho.sound.keeps i _ hi)).1 (Nat.lt_irrefl _)
    · rcases BTreeTraverseHolder.update_cases ht with ⟨rfl, -⟩ | ⟨hne, ht⟩
      · exact ⟨_, Function.update_self ..⟩
      · obtain ⟨i, hi⟩ := ho.held k t ht
        exact ⟨i, (Function.update_of_ne hne ..).trans hi⟩

theorem Owned.continued {erased : Option Pointer} {env : Env} {s s' : Server} {m : Memory} {id : UInt32}
    {request : RequestAddContinue} {response : Response} (ho : Owned (s, m))
    (hreads : ∀ pointer, m.holder id = some pointer → erased = some pointer)
    (h : Continued env s id request s' response) :
    Owned (s', observe erased m ⟨env, .addContinue id request, s, response, s'⟩) := by
  have hm := (ho.sound.parse id).get request.initRequestId
  have hget : ∀ k t, s.holder.traverses[k]? = some (some t) →
      ∃ i, ((m.parse id).get request.initRequestId).holder k = some (some i) := fun k t ht =>
    (ho.held k t ht).imp fun i hi => get_holder hi
  cases h with
  | equal hd =>
    simp only [observe, hd]
    exact ⟨hm, fun k t ht => hget k t ((BTreeTraverseHolder.getTraverse_stored ..).mp ht)⟩
  | moved hd hstored _ _ =>
    obtain ⟨i, hi⟩ := hget _ _ hstored
    simp only [observe, hd]
    refine ⟨hm.access hi, fun k u hu => ?_⟩
    rcases BTreeTraverseHolder.update_cases hu with ⟨rfl, -⟩ | ⟨-, hu⟩
    · exact ⟨i, hi⟩
    · exact hget k u hu
  | ended hd hstored _ _ _ =>
    obtain ⟨i, hi⟩ := hget _ _ hstored
    -- the id looked up has an entry, and so no other is made
    have hsame : (m.parse id).get request.initRequestId = m.parse id := by
      obtain ⟨j, hj⟩ := ho.held _ _ hstored
      simp [get, show (m.parse id).holder request.initRequestId = some (some j) from hj]
    simp only [observe, hd]
    refine ⟨(hm.access hi).remove ?_ ?_, fun k u hu => ?_⟩
    · rw [hsame]
      exact hreads
    · rw [hsame]
      intro j hj hnodup
      exact (List.nodup_append.mp hnodup).2.2 id (ho.sound.stands id j hj).1 id (by simp) rfl
    · obtain ⟨hne, hu⟩ := BTreeTraverseHolder.removeTraverse_cases hu
      rw [remove_holder hne]
      rcases BTreeTraverseHolder.update_cases hu with ⟨rfl, -⟩ | ⟨-, hu⟩
      · exact ⟨i, hi⟩
      · exact hget k u hu

theorem get_parsed (m : Memory) (id : UInt32) : (m.get id).requests = m.requests ∧ (m.get id).ids = m.ids := by
  unfold get
  split <;> exact ⟨rfl, rfl⟩

theorem remove_parsed (m : Memory) (erased : Option Pointer) (id : UInt32) :
    (m.remove erased id).requests.length = m.requests.length ∧ (m.remove erased id).ids = m.ids := by
  unfold remove
  split
  · exact ⟨rfl, rfl⟩
  unfold delete
  split
  · exact ⟨rfl, rfl⟩
  · exact ⟨rfl, rfl⟩
  · refine ⟨?_, rfl⟩
    split <;> simp

theorem observe_parsed (erased : Option Pointer) (m : Memory) (e : Exchange) :
    (observe erased m e).requests.length = m.requests.length + 1 ∧ (observe erased m e).ids = m.ids ++ [e.message.id] := by
  unfold observe
  split
  · split <;> simp [parse, create, Message.id, *]
  · dsimp only
    split <;> simp [parse, access, Message.id, get_parsed, remove_parsed, *]

theorem observed_ids {s : Server × Memory} {as : List ((Message × Env) × Option Pointer)}
    (h : Runs step (Server.init, init) as s) :
    s.2.requests.length = as.length ∧ s.2.ids = as.map fun a => a.1.1.id := by
  induction h with
  | nil => exact ⟨rfl, rfl⟩
  | snoc _ hs ih =>
    obtain ⟨e, -, hmessage, -, -, rfl⟩ := served_some hs
    simp only [observe_parsed, hmessage, ih, List.length_append, List.length_singleton, List.map_append,
      List.map_singleton, and_self]

theorem Owned.step {s s' : Server × Memory} {a : (Message × Env) × Option Pointer} (ho : Owned s)
    (h : Guarded step Reads s a s') : Owned s' :=
  @served_keeps _ (observe a.2) Owned (fun s m => ∀ pointer, s.2.holder m.1.id = some pointer → a.2 = some pointer)
    (fun _ _ _ _ _ _ _ ho _ hh => ho.added hh) (fun _ _ _ _ _ _ _ ho hreads hh => ho.continued hreads hh)
    s a.1 s' ho h

/-- **Nothing is used once it is gone**, nor deleted again, whatever messages
come and as long as erased entries give what they held; a request is given back
with each traversal. But where no id comes twice none is: every request and every
traversal ever made is still there. -/
theorem memory_safe {s : Server × Memory} {as : List ((Message × Env) × Option Pointer)}
    (h : Runs (Guarded step Reads) (Server.init, init) as s) :
    (∀ there ∈ s.2.accesses, there = true) ∧ s.2.requests.length = as.length ∧
      s.2.requests.count false = s.2.traverses.count none ∧
      ((as.map fun a => a.1.1.id).Nodup → false ∉ s.2.requests ∧ none ∉ s.2.traverses) := by
  have hm := (h.invariant (fun _ _ _ ho hs => Owned.step ho hs) Owned.init).sound
  obtain ⟨hlength, hids⟩ := observed_ids (h.mono fun _ _ _ hs => hs.2)
  refine ⟨hm.accesses, hlength, hm.given, fun hnodup => ?_⟩
  have hkept := hm.kept (hids ▸ hnodup)
  refine ⟨?_, hkept⟩
  rw [← List.count_eq_zero, hm.given, List.count_eq_zero]
  exact hkept

/-- A second insert is continued under its own id, and its traversal deleted; a
third under a new one, and its traversal stays. -/
theorem memory_safe_pair :
    ∃ s, Runs (Guarded step Reads) (Server.init, init)
        [((.add 1 (.ofValue [0x35]), .calm), none), ((.add 2 (.ofValue [0x33]), .calm), none),
          ((.addContinue 2 ⟨2, 1⟩, .calm), some (some 0)), ((.add 4 (.ofValue [0x34]), .calm), none),
          ((.addContinue 5 ⟨4, -1⟩, .calm), none)] s ∧
      s.2.traverses = [none, some 3] ∧ s.2.requests = [true, false, true, true, true] ∧
      s.2.accesses.length = 3 ∧ ∀ there ∈ s.2.accesses, there = true :=
  have hrun : Runs (Guarded step Reads) (Server.init, init)
      [((.add 1 (.ofValue [0x35]), .calm), none), ((.add 2 (.ofValue [0x33]), .calm), none),
        ((.addContinue 2 ⟨2, 1⟩, .calm), some (some 0)), ((.add 4 (.ofValue [0x34]), .calm), none),
        ((.addContinue 5 ⟨4, -1⟩, .calm), none)] _ :=
    .cons ⟨nofun, rfl⟩ (.cons ⟨nofun, rfl⟩ (.cons ⟨fun _ => id, rfl⟩ (.cons ⟨nofun, rfl⟩ (.cons ⟨nofun, rfl⟩ .nil))))
  ⟨_, hrun, rfl, rfl, rfl, (memory_safe hrun).1⟩

end Memory

end Zql
