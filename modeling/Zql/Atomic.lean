/-
Where the workers of the daemon stand, beside handlers that run as one step.

A traversal is in one hand at a time: a handler's, from the answer of its client on,
or else its client's. So the accesses of a handler to it are not disturbed
(`Frame.stands`), and the roots and nodes it reads on the way only ever get more.
An insert takes effect in one of its handler's steps; until its client hears of it,
it is counted with its worker (`Follows.advanced`).
-/
import Mathlib.Data.List.Perm.Basic
import Zql.Daemon
import Zql.Insertion

namespace Zql

open Dyadic SearchTree Transition

open Protocol (Valid)

namespace Daemon

variable {answer : RequestAdd → Ciphertext → Int32} {s s' : Shared} {p p' : Protocol} {job : Job} {stage stage' : Stage}

/-! ## Pointers -/

@[simp] theorem Shared.write_heap (s : Shared) (t : Nat) (traverse : BTreeTraverse) :
    (s.write t traverse).heap = s.heap := rfl

@[simp] theorem Shared.write_forest (s : Shared) (t : Nat) (traverse : BTreeTraverse) :
    (s.write t traverse).forest = s.forest := rfl

@[simp] theorem Shared.write_holder (s : Shared) (t : Nat) (traverse : BTreeTraverse) :
    (s.write t traverse).holder = s.holder := rfl

@[simp] theorem Shared.write_database (s : Shared) (t : Nat) (traverse : BTreeTraverse) :
    (s.write t traverse).database = s.database := rfl

@[simp] theorem Shared.add_heap (s : Shared) (env : Env) (request : RequestAdd) : (s.add env request).heap = s.heap := rfl

@[simp] theorem Shared.add_forest (s : Shared) (env : Env) (request : RequestAdd) :
    (s.add env request).forest = s.forest := rfl

@[simp] theorem Shared.add_holder (s : Shared) (env : Env) (request : RequestAdd) :
    (s.add env request).holder = s.holder := rfl

@[simp] theorem Shared.add_traverse? (s : Shared) (env : Env) (request : RequestAdd) (t : Nat) :
    (s.add env request).traverse? t = s.traverse? t := rfl

theorem Shared.traverse?_write (h : t < s.traverses.length) (traverse : BTreeTraverse) :
    (s.write t traverse).traverse? t = some traverse := by
  simp [Shared.traverse?, Shared.write, h]

theorem Shared.traverse?_write_of_ne {t u : Nat} (h : u ≠ t) (traverse : BTreeTraverse) :
    (s.write t traverse).traverse? u = s.traverse? u := by
  simp [Shared.traverse?, Shared.write, List.getElem?_set_ne (Ne.symm h)]

/-- The pointers in the holder: to traversals that were made, no two to the same. -/
structure Store (s : Shared) (used : List UInt32) : Prop where
  keys : ∀ (i : UInt32) x, s.holder[i]? = some x → i ∈ used
  bound : ∀ (i : UInt32) t, s.holder[i]? = some (some t) → t < s.traverses.length
  apart : ∀ (i j : UInt32) t, s.holder[i]? = some (some t) → s.holder[j]? = some (some t) → i = j

/-- A pointer found under an id: to the object `mine`, and the server of one-step
handlers has `traverse` there. -/
structure Held (s : Shared) (p : Protocol) (i : UInt32) (t : Nat) (mine traverse : BTreeTraverse) : Prop where
  holder : s.holder[i]? = some (some t)
  object : s.traverse? t = some mine
  stored : p.server.holder.traverses[i]? = some (some traverse)

/-- The traversal under an id is the same on both sides. -/
def Stored (s : Shared) (p : Protocol) (i : UInt32) : Prop := ∃ t traverse, Held s p i t traverse traverse

/-! ## Where the handlers stand -/

/-- A traversal that is about to step to a side. -/
def stepped (side : Side) (traverse : BTreeTraverse) : BTreeTraverse :=
  { traverse with path := pathStep side traverse.path, pathLength := traverse.pathLength + 1 }

/-- The traversal a handler has in hand. -/
def owner (job : Job) : Stage → Option UInt32
  | .keepRequest _ => some job.requestId
  | .addContinue request => some request.initRequestId
  | .goTo _ i _ => some i
  | .newNode _ i _ => some i
  | .value i _ => some i
  | .addRow i _ => some i
  | .send (.addTraverse r) => some r.initRequestId
  | _ => none

/-- The insert that has taken effect, and is still to be answered with `ResponseAddOk`. -/
def done (job : Job) : Stage → Option RequestAdd
  | .addRoot _ => some job.insert
  | .addRow _ _ => some job.insert
  | .removeTraverse => some job.insert
  | .send .addOk => some job.insert
  | _ => none

/-- The call of `Database::add` for a request. -/
def Job.addCall (job : Job) (request : RequestAdd) : DatabaseAdd :=
  ⟨request.database, request.table, request.row, job.env.mysql.opens && job.env.mysql.writesRow⟩

/-- The row of an insert that has taken effect, still to be added to its table. -/
def owed (s : Shared) (job : Job) : Stage → Option DatabaseAdd
  | .addRoot opeField => some (job.addCall (job.withCode opeField 9223372036854775808))
  | .addRow _ t =>
    (s.traverse? t).map fun traverse =>
      job.addCall (job.withCode (opeFieldName job.insert.row) traverse.path)
  | _ => none

/-- The message has not been taken up. -/
def New (s : Shared) (p : Protocol) (job : Job) : Prop := job.requestId ∉ p.used ∧ s.holder[job.requestId]? = none

/-- The tree of the insert's table has been found. -/
def Found (s : Shared) (job : Job) (tree : Addr) (opeValue : Str) : Prop :=
  (∃ opeField, opeEntry job.insert.row = some (opeField, opeValue)) ∧
    s.forest.getTree job.insert.database job.insert.table = some tree

/-- The client's insert is on its way. -/
def Asked (p : Protocol) (job : Job) (i : UInt32) (q : Pending) : Prop :=
  q ∈ p.pending ∧ q.initRequestId = i ∧ q.request = job.insert

/-- What a handler relies on where it stands. -/
def Stands (answer : RequestAdd → Ciphertext → Int32) (s : Shared) (p : Protocol) (job : Job) : Stage → Prop
  | .add => New s p job
  | .createTree opeField opeValue => New s p job ∧ opeEntry job.insert.row = some (opeField, opeValue)
  | .addRoot _ => True
  | .createTraverse tree opeValue => New s p job ∧ Found s job tree opeValue
  | .keepRequest t =>
    job.requestId ∉ p.used ∧ s.holder[job.requestId]? = some (some t) ∧
      ∃ tree opeValue, Found s job tree opeValue ∧ s.traverse? t = some (.new tree opeValue)
  | .addContinue request =>
    New s p job ∧ ∃ q, Asked p job request.initRequestId q ∧ request.compareResult = answer q.request q.ciphertext ∧
      Stored s p request.initRequestId
  | .goTo side i t =>
    New s p job ∧ ∃ q, Asked p job i q ∧ direction (answer q.request q.ciphertext) = some side ∧
      ∃ traverse, Held s p i t traverse traverse
  | .newNode side i t =>
    New s p job ∧ ∃ q, Asked p job i q ∧ direction (answer q.request q.ciphertext) = some side ∧
      ∃ traverse, Held s p i t (stepped side traverse) traverse
  | .value i t =>
    ∃ q, Asked p job i q ∧ ∃ traverse, Held s p i t traverse traverse ∧ traverse.value s.heap = some q.ciphertext
  | .addRow i t =>
    s.holder[job.requestId]? = none ∧ s.holder[i]? = some (some t) ∧
      ∃ traverse, s.traverse? t = some traverse ∧ traverse.requestAdd = some job.insert
  | .removeTraverse => s.holder[job.requestId]? = none
  | .send (.addTraverse r) => Asked p job r.initRequestId ⟨r.initRequestId, job.insert, r.ciphertext⟩ ∧ Stored s p r.initRequestId
  | .send .addOk => True
  | .send _ => False

/-- The workers and clients have got as far as one-step handlers have in `p`. -/
structure Follows (answer : RequestAdd → Ciphertext → Int32) (s : Shared) (hs : List (Job × Stage))
    (ws : List Pending) (acks : List RequestAdd) (ids : List UInt32) (p : Protocol) : Prop where
  heap : s.heap = p.server.heap
  forest : s.forest = p.server.forest
  valid : ∃ ts, Valid answer True p ts
  pending : ∀ q ∈ p.pending, q.initRequestId ∈ p.used
  used : ∀ id ∈ p.used, id ∈ ids
  store : Store s ids
  stands : ∀ h ∈ hs, Stands answer s p h.1 h.2
  jobs : ∀ h ∈ hs, h.1.requestId ∈ ids
  distinct : (hs.map (·.1.requestId)).Nodup
  waiting : ∀ q ∈ ws, q ∈ p.pending ∧ Stored s p q.initRequestId
  owners : (ws.map (·.initRequestId) ++ hs.filterMap fun h => owner h.1 h.2).Nodup
  acknowledged : (acks ++ hs.filterMap fun h => done h.1 h.2).Perm p.answered
  adds : (s.database.adds ++ hs.filterMap fun h => owed s h.1 h.2).Perm p.server.database.adds

variable {hs : List (Job × Stage)} {ws : List Pending} {acks : List RequestAdd} {ids : List UInt32}

theorem Follows.perm {hs' : List (Job × Stage)} (hf : Follows answer s hs ws acks ids p)
    (h : hs.Perm hs') : Follows answer s hs' ws acks ids p :=
  { hf with
    stands := fun x hx => hf.stands x (h.mem_iff.mpr hx)
    jobs := fun x hx => hf.jobs x (h.mem_iff.mpr hx)
    distinct := (h.map _).nodup_iff.mp hf.distinct
    owners := ((h.filterMap _).append_left _).nodup_iff.mp hf.owners
    acknowledged := ((h.filterMap _).append_left _).symm.trans hf.acknowledged
    adds := ((h.filterMap _).append_left _).symm.trans hf.adds }

/-! ## What a step leaves alone -/

/-- A step of one handler, as far as the others may see it. -/
structure Frame (s s' : Shared) (p p' : Protocol) (job : Job) (stage : Stage) : Prop where
  holder : ∀ (i : UInt32) x, s.holder[i]? = some x → s'.holder[i]? = some x
  absent : ∀ i : UInt32, i ≠ job.requestId → s.holder[i]? = none → s'.holder[i]? = none
  traverse : ∀ (i : UInt32) t, owner job stage ≠ some i → s.holder[i]? = some (some t) → s'.traverse? t = s.traverse? t
  stored : ∀ q ∈ p.pending, owner job stage ≠ some q.initRequestId →
    p'.server.holder.traverses[q.initRequestId]? = p.server.holder.traverses[q.initRequestId]?
  pending : ∀ q ∈ p.pending, owner job stage ≠ some q.initRequestId → q ∈ p'.pending
  used : ∀ id ∈ p'.used, id ∈ p.used ∨ id = job.requestId
  root : ∀ (key : Str) (tree : Addr), s.forest.forest[key]? = some tree → s'.forest.forest[key]? = some tree
  value : ∀ (t : BTreeTraverse) c, t.value s.heap = some c → t.value s'.heap = some c

theorem Frame.refl (s : Shared) (p : Protocol) (job : Job) (stage : Stage) : Frame s s p p job stage :=
  ⟨fun _ _ h => h, fun _ _ h => h, fun _ _ _ _ => rfl, fun _ _ _ => rfl, fun _ h _ => h, fun _ h => .inl h,
   fun _ _ h => h, fun _ _ h => h⟩

variable {job₀ : Job} {stage₀ : Stage}

theorem Frame.new (hframe : Frame s s' p p' job₀ stage₀) (hid : job.requestId ≠ job₀.requestId) (h : New s p job) :
    New s' p' job :=
  ⟨fun hmem => (hframe.used _ hmem).elim h.1 hid, hframe.absent _ hid h.2⟩

theorem Frame.found (hframe : Frame s s' p p' job₀ stage₀) {tree : Addr} {opeValue : Str}
    (h : Found s job tree opeValue) : Found s' job tree opeValue :=
  ⟨h.1, hframe.root _ _ h.2⟩

theorem Frame.asked (hframe : Frame s s' p p' job₀ stage₀) {i : UInt32} {q : Pending} (hi : owner job₀ stage₀ ≠ some i)
    (h : Asked p job i q) : Asked p' job i q := by
  obtain ⟨hq, rfl, hrequest⟩ := h
  exact ⟨hframe.pending q hq hi, rfl, hrequest⟩

theorem Frame.held (hframe : Frame s s' p p' job₀ stage₀) {q : Pending} {t : Nat} {mine traverse : BTreeTraverse}
    (hq : q ∈ p.pending) (hi : owner job₀ stage₀ ≠ some q.initRequestId)
    (h : Held s p q.initRequestId t mine traverse) : Held s' p' q.initRequestId t mine traverse :=
  ⟨hframe.holder _ _ h.holder, (hframe.traverse _ _ hi h.holder).trans h.object,
   (hframe.stored q hq hi).trans h.stored⟩

theorem Frame.stands (hframe : Frame s s' p p' job₀ stage₀) (hid : job.requestId ≠ job₀.requestId)
    (howner : ∀ i, owner job stage = some i → owner job₀ stage₀ ≠ some i) (h : Stands answer s p job stage) :
    Stands answer s' p' job stage := by
  cases stage with
  | add => exact hframe.new hid h
  | createTree opeField opeValue => exact ⟨hframe.new hid h.1, h.2⟩
  | addRoot _ => trivial
  | createTraverse tree opeValue => exact ⟨hframe.new hid h.1, hframe.found h.2⟩
  | keepRequest t =>
    obtain ⟨hnew, hholder, tree, opeValue, hfound, hobject⟩ := h
    exact ⟨fun hmem => (hframe.used _ hmem).elim hnew hid, hframe.holder _ _ hholder, tree, opeValue,
      hframe.found hfound, (hframe.traverse _ _ (howner _ rfl) hholder).trans hobject⟩
  | addContinue request =>
    obtain ⟨hnew, q, hq, hresult, t, traverse, hheld⟩ := h
    have hi := howner _ rfl
    refine ⟨hframe.new hid hnew, q, hframe.asked hi hq, hresult, t, traverse, ?_⟩
    rw [← hq.2.1] at hi hheld ⊢
    exact hframe.held hq.1 hi hheld
  | goTo side i t =>
    obtain ⟨hnew, q, hq, hside, traverse, hheld⟩ := h
    have hi := howner _ rfl
    refine ⟨hframe.new hid hnew, q, hframe.asked hi hq, hside, traverse, ?_⟩
    rw [← hq.2.1] at hi hheld ⊢
    exact hframe.held hq.1 hi hheld
  | newNode side i t =>
    obtain ⟨hnew, q, hq, hside, traverse, hheld⟩ := h
    have hi := howner _ rfl
    refine ⟨hframe.new hid hnew, q, hframe.asked hi hq, hside, traverse, ?_⟩
    rw [← hq.2.1] at hi hheld ⊢
    exact hframe.held hq.1 hi hheld
  | value i t =>
    obtain ⟨q, hq, traverse, hheld, hvalue⟩ := h
    have hi := howner _ rfl
    refine ⟨q, hframe.asked hi hq, traverse, ?_, hframe.value _ _ hvalue⟩
    rw [← hq.2.1] at hi hheld ⊢
    exact hframe.held hq.1 hi hheld
  | addRow i t =>
    obtain ⟨habsent, hholder, traverse, hobject, hrequest⟩ := h
    exact ⟨hframe.absent _ hid habsent, hframe.holder _ _ hholder, traverse,
      (hframe.traverse _ _ (howner _ rfl) hholder).trans hobject, hrequest⟩
  | removeTraverse => exact hframe.absent _ hid h
  | send response =>
    cases response with
    | addTraverse r =>
      obtain ⟨hq, t, traverse, hheld⟩ := h
      have hi := howner _ rfl
      exact ⟨hframe.asked hi hq, t, traverse, hframe.held hq.1 hi hheld⟩
    | addOk => trivial
    | getOk _ => exact h
    | getEmpty => exact h

theorem Frame.owed (hframe : Frame s s' p p' job₀ stage₀)
    (howner : ∀ i, owner job stage = some i → owner job₀ stage₀ ≠ some i) (h : Stands answer s p job stage) :
    owed s' job stage = owed s job stage := by
  cases stage with
  | addRow i t =>
    obtain ⟨-, hholder, -⟩ := h
    simp only [Daemon.owed, hframe.traverse _ _ (howner _ rfl) hholder]
  | _ => rfl

theorem filterMap_cons_toList {α β : Type} (f : α → Option β) (a : α) (as : List α) :
    (a :: as).filterMap f = (f a).toList ++ as.filterMap f := by
  cases h : f a <;> simp [h]

/-- The traversal a handler has in hand is in the holder. -/
theorem Stands.held (h : Stands answer s p job stage) {i : UInt32} (hi : owner job stage = some i) :
    ∃ x, s.holder[i]? = some x := by
  cases stage with
  | keepRequest t =>
    obtain rfl := Option.some.inj hi
    exact ⟨_, h.2.1⟩
  | addContinue request =>
    obtain rfl := Option.some.inj hi
    obtain ⟨-, q, -, -, t, traverse, hheld⟩ := h
    exact ⟨_, hheld.holder⟩
  | goTo side j t =>
    obtain rfl := Option.some.inj hi
    obtain ⟨-, q, -, -, traverse, hheld⟩ := h
    exact ⟨_, hheld.holder⟩
  | newNode side j t =>
    obtain rfl := Option.some.inj hi
    obtain ⟨-, q, -, -, traverse, hheld⟩ := h
    exact ⟨_, hheld.holder⟩
  | value j t =>
    obtain rfl := Option.some.inj hi
    obtain ⟨q, -, traverse, hheld, -⟩ := h
    exact ⟨_, hheld.holder⟩
  | addRow j t =>
    obtain rfl := Option.some.inj hi
    exact ⟨_, h.2.1⟩
  | send response =>
    cases response with
    | addTraverse r =>
      obtain rfl := Option.some.inj hi
      obtain ⟨-, t, traverse, hheld⟩ := h
      exact ⟨_, hheld.holder⟩
    | addOk => cases hi
    | getOk _ => cases hi
    | getEmpty => cases hi
  | add => cases hi
  | createTree _ _ => cases hi
  | addRoot _ => cases hi
  | createTraverse _ _ => cases hi
  | removeTraverse => cases hi

theorem Follows.head (hf : Follows answer s ((job, stage) :: hs) ws acks ids p) : Stands answer s p job stage :=
  hf.stands (job, stage) List.mem_cons_self

theorem Follows.others (hf : Follows answer s ((job, stage) :: hs) ws acks ids p) :
    (∀ h ∈ hs, h.1.requestId ≠ job.requestId ∧ ∀ i, owner h.1 h.2 = some i → owner job stage ≠ some i) ∧
    ∀ q ∈ ws, owner job stage ≠ some q.initRequestId := by
  have hdistinct := hf.distinct
  have howners := hf.owners
  rw [List.map_cons, List.nodup_cons] at hdistinct
  rw [filterMap_cons_toList, List.nodup_append] at howners
  obtain ⟨-, hmine, hapart⟩ := howners
  refine ⟨fun h hh => ⟨fun he => hdistinct.1 (List.mem_map.mpr ⟨h, hh, he⟩), fun i hi he => ?_⟩, fun q hq he => ?_⟩
  · rw [he, Option.toList_some, List.singleton_append, List.nodup_cons] at hmine
    exact hmine.1 (List.mem_filterMap.mpr ⟨h, hh, hi⟩)
  · exact hapart q.initRequestId (List.mem_map_of_mem hq) q.initRequestId (by simp [he]) rfl

theorem perm_account {α : Type} {as xs ds rs ps : List α} (h : (as ++ (ds ++ xs)).Perm ps) :
    (as ++ ((ds ++ rs) ++ xs)).Perm (ps ++ rs) := by
  refine .trans ?_ (h.append_right rs)
  simp only [List.append_assoc]
  exact ((List.perm_append_comm).append_left ds).append_left as

/-- **A step of a handler**, by what it does itself. -/
theorem Follows.advanced (hf : Follows answer s ((job, stage) :: hs) ws acks ids p) (hframe : Frame s s' p p' job stage)
    (hheap : s'.heap = p'.server.heap) (hforest : s'.forest = p'.server.forest) (hvalid : ∃ ts, Valid answer True p' ts)
    (hpending : ∀ q ∈ p'.pending, q.initRequestId ∈ p'.used) (hstore : Store s' ids)
    (hstands : Stands answer s' p' job stage')
    (howner : ∀ i, owner job stage' = some i → owner job stage = some i ∨ s.holder[i]? = none)
    (hdone : ∃ rs, p'.answered = p.answered ++ rs ∧ (done job stage').toList = (done job stage).toList ++ rs)
    (howed : ∃ xs ys, s'.database.adds = s.database.adds ++ xs ∧
      p'.server.database.adds = p.server.database.adds ++ ys ∧
      xs ++ (owed s' job stage').toList = (owed s job stage).toList ++ ys) :
    Follows answer s' ((job, stage') :: hs) ws acks ids p' := by
  obtain ⟨hothers, hwaiting⟩ := hf.others
  obtain ⟨rs, hanswered, hdone⟩ := hdone
  obtain ⟨xs, ys, hadds, hadds', howed⟩ := howed
  have hacks := hf.acknowledged
  have hcalls := hf.adds
  rw [filterMap_cons_toList] at hacks hcalls
  exact {
    heap := hheap
    forest := hforest
    valid := hvalid
    pending := hpending
    used := fun id hid => by
      rcases hframe.used id hid with hid | rfl
      · exact hf.used id hid
      · exact hf.jobs _ List.mem_cons_self
    store := hstore
    stands := fun h hh => by
      rcases List.mem_cons.mp hh with rfl | hh
      · exact hstands
      · exact hframe.stands (hothers h hh).1 (hothers h hh).2 (hf.stands h (List.mem_cons_of_mem _ hh))
    jobs := fun h hh => by
      rcases List.mem_cons.mp hh with rfl | hh
      · exact hf.jobs (job, stage) List.mem_cons_self
      · exact hf.jobs h (List.mem_cons_of_mem _ hh)
    distinct := hf.distinct
    waiting := fun q hq => by
      obtain ⟨hmem, t, traverse, hheld⟩ := hf.waiting q hq
      exact ⟨hframe.pending q hmem (hwaiting q hq), t, traverse, hframe.held hmem (hwaiting q hq) hheld⟩
    owners := by
      have hold := hf.owners
      rw [filterMap_cons_toList] at hold ⊢
      cases hi : owner job stage' with
      | none => exact hold.sublist (List.Sublist.append_left (List.sublist_append_right _ _) _)
      | some i =>
        rcases howner i hi with hsame | hnone
        · rwa [hsame] at hold
        · -- what is in some other hand is in the holder
          have hrest : (ws.map (·.initRequestId) ++ hs.filterMap fun h => owner h.1 h.2).Nodup :=
            hold.sublist (List.Sublist.append_left (List.sublist_append_right _ _) _)
          refine List.perm_middle.nodup_iff.mpr (List.nodup_cons.mpr ⟨fun hmem => ?_, hrest⟩)
          have hheld : ∃ x, s.holder[i]? = some x := by
            rcases List.mem_append.mp hmem with hmem | hmem
            · obtain ⟨q, hq, rfl⟩ := List.mem_map.mp hmem
              obtain ⟨-, t, traverse, hheld⟩ := hf.waiting q hq
              exact ⟨_, hheld.holder⟩
            · obtain ⟨h, hh, hi⟩ := List.mem_filterMap.mp hmem
              exact (hf.stands h (List.mem_cons_of_mem _ hh)).held hi
          obtain ⟨x, hx⟩ := hheld
          rw [hnone] at hx
          cases hx
    acknowledged := by
      rw [filterMap_cons_toList, hanswered, hdone]
      exact perm_account hacks
    adds := by
      have hsame : (hs.filterMap fun h => owed s' h.1 h.2) = hs.filterMap fun h => owed s h.1 h.2 :=
        List.filterMap_congr fun h hh =>
          hframe.owed (hothers h hh).2 (hf.stands h (List.mem_cons_of_mem _ hh))
      rw [filterMap_cons_toList, hsame, hadds, hadds', List.append_assoc, ← List.append_assoc xs, howed]
      exact perm_account hcalls }

end Daemon

end Zql
