/-
The workers of the daemon do what handlers that run as one step do
(`workers_linearize`), as long as no worker is overtaken between a check and what it
does on it. An insert takes effect where its handler writes something the others
see: where it creates a root, keeps its request with a new traversal, moves its
traversal, or hangs up a new node. A row without an order-preserving value takes
effect where it goes to its table.
-/
import Zql.Atomic

namespace Zql

open Dyadic SearchTree Transition

open Protocol (Valid)

namespace Daemon

variable {answer : RequestAdd → Ciphertext → Int32} {s s' : Shared} {p p' : Protocol} {job : Job} {stage stage' : Stage}
  {hs : List (Job × Stage)} {ws : List Pending} {acks : List RequestAdd} {ids : List UInt32}

/-! ## The steps -/

/-- One-step handlers can get to where the workers are. -/
def Catches (answer : RequestAdd → Ciphertext → Int32) (s : Shared) (hs : List (Job × Stage)) (ws : List Pending)
    (acks : List RequestAdd) (ids : List UInt32) (p : Protocol) : Prop :=
  ∃ bs p', Runs (Guarded (ofPartial (Protocol.step answer)) Protocol.Fresh) p bs p' ∧ Follows answer s hs ws acks ids p'

theorem Follows.catches (hf : Follows answer s hs ws acks ids p) : Catches answer s hs ws acks ids p :=
  ⟨[], p, .nil, hf⟩

theorem Follows.look (hf : Follows answer s ((job, stage) :: hs) ws acks ids p) (hstands : Stands answer s p job stage')
    (howner : ∀ i, owner job stage' = some i → owner job stage = some i ∨ s.holder[i]? = none)
    (hdone : done job stage' = done job stage) (howed : owed s job stage' = owed s job stage) :
    Follows answer s ((job, stage') :: hs) ws acks ids p :=
  hf.advanced (.refl ..) hf.heap hf.forest hf.valid hf.pending hf.store hstands howner
    ⟨[], by simp, by simp [hdone]⟩ ⟨[], [], by simp, by simp, by simp [howed]⟩

theorem Follows.pay (hf : Follows answer s ((job, stage) :: hs) ws acks ids p) {request : RequestAdd}
    (hrequest : owed s job stage = some (job.addCall request))
    (hstands : Stands answer (s.add job.env request) p job stage')
    (howner : owner job stage' = none) (hdone : done job stage' = done job stage)
    (howed : owed (s.add job.env request) job stage' = none) :
    Follows answer (s.add job.env request) ((job, stage') :: hs) ws acks ids p := by
  have hstore := hf.store
  have hframe : Frame s (s.add job.env request) p p job stage :=
    ⟨fun _ _ h => h, fun _ _ h => h, fun _ _ _ _ => rfl, fun _ _ _ => rfl, fun _ h _ => h, fun _ h => .inl h,
     fun _ _ h => h, fun _ _ h => h⟩
  refine hf.advanced hframe hf.heap hf.forest hf.valid hf.pending ⟨hstore.keys, hstore.bound, hstore.apart⟩ hstands
    (fun i hi => by rw [howner] at hi; cases hi) ⟨[], by simp, by simp [hdone]⟩
    ⟨[job.addCall request], [], Database.add_adds .., by simp, ?_⟩
  simp [howed, hrequest]

theorem Follows.take_add (hf : Follows answer s hs ws acks ids p) {id : UInt32} (hid : id ∉ p.used)
    (request : RequestAdd) (env : Env) : ∃ server response,
      Runs (Guarded (ofPartial (Protocol.step answer)) Protocol.Fresh) p [.add id request env]
        (p.receive id request server response) ∧
      Added env p.server id request server response ∧
      (∃ ts, Valid answer True (p.receive id request server response) ts) ∧
      ∀ q ∈ (p.receive id request server response).pending,
        q.initRequestId ∈ (p.receive id request server response).used := by
  obtain ⟨ts, hi⟩ := hf.valid
  obtain ⟨p', hstep⟩ := hi.progress.1 id request env
  obtain ⟨ts', hi', -⟩ := hi.step (Protocol.Fresh.apart hf.pending (a := .add id request env) hid)
    (Protocol.takes_of_step hstep)
  have hpending := Protocol.used_step hf.pending (Protocol.takes_of_step hstep)
  obtain ⟨server, response, hadded, rfl⟩ := Protocol.step_add hstep
  exact ⟨server, response, .one ⟨hid, hstep⟩, hadded, ⟨ts', hi'⟩, hpending⟩

theorem Follows.take_continue (hf : Follows answer s hs ws acks ids p) {id : UInt32} (hid : id ∉ p.used) {q : Pending}
    (hq : q ∈ p.pending) (env : Env) : ∃ k server response, p.pending[k]? = some q ∧
      Runs (Guarded (ofPartial (Protocol.step answer)) Protocol.Fresh) p [.addContinue id k env]
        ({ p with pending := p.pending.eraseIdx k }.receive id q.request server response) ∧
      Continued env p.server id
        { initRequestId := q.initRequestId, compareResult := answer q.request q.ciphertext } server response ∧
      (∃ ts, Valid answer True ({ p with pending := p.pending.eraseIdx k }.receive id q.request server response) ts) ∧
      ∀ q' ∈ ({ p with pending := p.pending.eraseIdx k }.receive id q.request server response).pending,
        q'.initRequestId ∈ ({ p with pending := p.pending.eraseIdx k }.receive id q.request server response).used := by
  obtain ⟨ts, hi⟩ := hf.valid
  obtain ⟨k, hk⟩ := List.mem_iff_getElem?.mp hq
  obtain ⟨p', hstep⟩ := hi.progress.2 id k env (List.getElem?_eq_some_iff.mp hk).1
  obtain ⟨ts', hi', -⟩ := hi.step (Protocol.Fresh.apart hf.pending (a := .addContinue id k env) hid)
    (Protocol.takes_of_step hstep)
  have hpending := Protocol.used_step hf.pending (Protocol.takes_of_step hstep)
  obtain ⟨q', server, response, hq', hcontinued, rfl⟩ := Protocol.step_addContinue hstep
  obtain rfl : q = q' := Option.some.inj (hk.symm.trans hq')
  exact ⟨k, server, response, hk, .one ⟨hid, hstep⟩, hcontinued, ⟨ts', hi'⟩, hpending⟩

theorem mem_eraseIdx_of_ne {k : Nat} {q q' : Pending} (hk : p.pending[k]? = some q) (hq' : q' ∈ p.pending)
    (hne : q'.initRequestId ≠ q.initRequestId) : q' ∈ p.pending.eraseIdx k := by
  obtain ⟨j, hj⟩ := List.mem_iff_getElem?.mp hq'
  refine List.mem_eraseIdx_iff_getElem?.mpr ⟨j, ?_, hj⟩
  rintro rfl
  obtain rfl : q = q' := Option.some.inj (hk.symm.trans hj)
  exact hne rfl

variable {opeField opeValue : Str} {tree next : Addr} {node : BTreeNode} {i : UInt32} {t : Nat}
  {traverse mine : BTreeTraverse} {side : Side} {request : RequestAddContinue}

theorem Follows.add_plain (hf : Follows answer s ((job, .add) :: hs) ws acks ids p)
    (hope : opeEntry job.insert.row = none) :
    Catches answer (s.add job.env job.insert) ((job, .send .addOk) :: hs) ws acks ids p := by
  obtain ⟨hid, -⟩ := hf.head
  obtain ⟨server, response, hrun, hadded, hvalid, hpending⟩ := hf.take_add hid job.insert job.env
  have hstore := hf.store
  cases hadded with
  | root hope' _ =>
    rw [hope] at hope'
    cases hope'
  | started hope' _ _ =>
    rw [hope] at hope'
    cases hope'
  | plain _ =>
    refine ⟨_, _, hrun, hf.advanced ⟨fun _ _ h => h, fun _ _ h => h, fun _ _ _ _ => rfl, fun _ _ _ => rfl,
      fun _ h _ => h, fun id h => ?_, fun _ _ h => h, fun _ _ h => h⟩ hf.heap hf.forest hvalid hpending
      ⟨hstore.keys, hstore.bound, hstore.apart⟩ trivial (fun i hi => by cases hi)
      ⟨[job.insert], rfl, rfl⟩ ⟨[job.addCall job.insert], [job.addCall job.insert], ?_, ?_, rfl⟩⟩
    · simpa [Protocol.receive] using h
    · exact Database.add_adds ..
    · exact Database.add_adds ..

theorem value_grown {h h' : Heap} {c c' : Ciphertext} (hg : Grown h h' c) (hvalue : traverse.value h = some c') :
    traverse.value h' = some c' := by
  have hlt : traverse.current < h.length := by
    obtain ⟨node, hnode, -⟩ := Option.map_eq_some_iff.mp hvalue
    exact (List.getElem?_eq_some_iff.mp hnode).1
  rw [BTreeTraverse.value, ← List.getElem?_map] at hvalue ⊢
  rw [hg, List.getElem?_append_left (by simpa using hlt), hvalue]

theorem Follows.createTree (hf : Follows answer s ((job, .createTree opeField opeValue) :: hs) ws acks ids p)
    (hcurrent : s.forest.getTree job.insert.database job.insert.table = none) :
    Catches answer
      { s with
        heap := s.heap ++ [BTreeNode.new opeValue]
        forest := ⟨s.forest.forest.insert (BTreeForest.id job.insert.database job.insert.table) s.heap.length⟩ }
      ((job, .addRoot opeField) :: hs) ws acks ids p := by
  obtain ⟨⟨hid, -⟩, hope⟩ := hf.head
  obtain ⟨server, response, hrun, hadded, hvalid, hpending⟩ := hf.take_add hid job.insert job.env
  have hstore := hf.store
  have htree := hcurrent
  rw [hf.forest] at htree
  cases hadded with
  | plain hope' =>
    rw [hope] at hope'
    cases hope'
  | started _ htree' _ =>
    rw [htree] at htree'
    cases htree'
  | root hope' _ =>
    obtain ⟨rfl, rfl⟩ := Prod.mk.inj (Option.some.inj (hope.symm.trans hope'))
    refine ⟨_, _, hrun, hf.advanced ⟨fun _ _ h => h, fun _ _ h => h, fun _ _ _ _ => rfl, fun _ _ _ => rfl,
      fun _ h _ => h, fun id h => ?_, fun key tree h => ?_, fun t c h => ?_⟩ ?_ ?_ hvalid hpending
      ⟨hstore.keys, hstore.bound, hstore.apart⟩ trivial (fun i hi => by cases hi)
      ⟨[job.insert], rfl, rfl⟩ ⟨[], _, by simp, Database.add_adds .., rfl⟩⟩
    · simpa [Protocol.receive] using h
    · have hne : key ≠ BTreeForest.id job.insert.database job.insert.table := by
        rintro rfl
        rw [BTreeForest.getTree, h] at hcurrent
        cases hcurrent
      rw [getElem?_insert_if, if_neg hne, h]
    · exact value_grown (grown_create _ _) h
    · simp only [Protocol.receive, hf.heap]
    · simp only [Protocol.receive, hf.heap, hf.forest]

theorem Follows.createTraverse (hf : Follows answer s ((job, .createTraverse tree opeValue) :: hs) ws acks ids p) :
    Follows answer
      { s with
        traverses := s.traverses ++ [some (.new tree opeValue)]
        holder := s.holder.insert job.requestId (some s.traverses.length) }
      ((job, .keepRequest s.traverses.length) :: hs) ws acks ids p := by
  obtain ⟨⟨hid, habsent⟩, hfound⟩ := hf.head
  have hstore := hf.store
  have hlookup : ∀ (i : UInt32) x, (s.holder.insert job.requestId (some s.traverses.length))[i]? = some x →
      i = job.requestId ∧ some s.traverses.length = x ∨ i ≠ job.requestId ∧ s.holder[i]? = some x := by
    intro i x h
    rw [getElem?_insert_if] at h
    split at h
    · next hi => exact .inl ⟨hi, Option.some.inj h⟩
    · next hi => exact .inr ⟨hi, h⟩
  refine hf.advanced ⟨fun i x h => ?_, fun i hi h => ?_, fun i t _ h => ?_, fun _ _ _ => rfl, fun _ h _ => h,
    fun _ h => .inl h, fun _ _ h => h, fun _ _ h => h⟩ hf.heap hf.forest hf.valid hf.pending ⟨fun i x h => ?_,
    fun i t h => ?_, fun i j t hi hj => ?_⟩ ⟨hid, ?_, tree, opeValue, hfound, ?_⟩ (fun i hi => ?_)
    ⟨[], by simp, rfl⟩ ⟨[], [], by simp, by simp, rfl⟩
  · have hne : i ≠ job.requestId := by
      rintro rfl
      rw [habsent] at h
      cases h
    rw [getElem?_insert_if, if_neg hne, h]
  · rw [getElem?_insert_if, if_neg hi, h]
  · simp only [Shared.traverse?, List.getElem?_append_left (hstore.bound i t h)]
  · rcases hlookup i x h with ⟨rfl, -⟩ | ⟨-, h⟩
    · exact hf.jobs _ List.mem_cons_self
    · exact hstore.keys i x h
  · rw [List.length_append, List.length_singleton]
    rcases hlookup i _ h with ⟨-, ht⟩ | ⟨-, h⟩
    · obtain rfl := Option.some.inj ht
      omega
    · have := hstore.bound i t h
      omega
  · rcases hlookup i _ hi with ⟨rfl, ht⟩ | ⟨-, hi⟩ <;> rcases hlookup j _ hj with ⟨rfl, ht'⟩ | ⟨-, hj⟩
    · rfl
    · obtain rfl := Option.some.inj ht
      exact absurd (hstore.bound j _ hj) (Nat.lt_irrefl _)
    · obtain rfl := Option.some.inj ht'
      exact absurd (hstore.bound i _ hi) (Nat.lt_irrefl _)
    · exact hstore.apart i j t hi hj
  · rw [getElem?_insert_if, if_pos rfl]
  · simp [Shared.traverse?]
  · obtain rfl := Option.some.inj hi
    exact .inr habsent

theorem Store.write_of_ne {ids : List UInt32} (hstore : Store s ids) {i j : UInt32} {t u : Nat}
    (ht : s.holder[i]? = some (some t)) (hu : s.holder[j]? = some (some u)) (hne : i ≠ j) (traverse : BTreeTraverse) :
    (s.write t traverse).traverse? u = s.traverse? u := by
  refine Shared.traverse?_write_of_ne (fun he => ?_) traverse
  subst he
  exact hne (hstore.apart i j u ht hu)

theorem Store.write {ids : List UInt32} (hstore : Store s ids) (t : Nat) (traverse : BTreeTraverse) :
    Store (s.write t traverse) ids := by
  refine ⟨hstore.keys, fun i u h => ?_, hstore.apart⟩
  simpa [Shared.write] using hstore.bound i u h

theorem Follows.keepRequest (hf : Follows answer s ((job, .keepRequest t) :: hs) ws acks ids p)
    (hobject : s.traverse? t = some traverse) :
    Catches answer (s.write t { traverse with requestAdd := some job.insert })
      ((job, .value job.requestId t) :: hs) ws acks ids p := by
  obtain ⟨hid, hholder, tree, opeValue, ⟨⟨opeField, hope⟩, htree⟩, hobject'⟩ := hf.head
  obtain rfl := Option.some.inj (hobject.symm.trans hobject')
  obtain ⟨server, response, hrun, hadded, hvalid, hpending⟩ := hf.take_add hid job.insert job.env
  have hstore := hf.store
  rw [hf.forest] at htree
  cases hadded with
  | plain hope' =>
    rw [hope] at hope'
    cases hope'
  | root _ htree' =>
    rw [htree] at htree'
    cases htree'
  | @started opeField' opeValue' tree' node hope' htree' hnode =>
    obtain ⟨rfl, rfl⟩ := Prod.mk.inj (Option.some.inj (hope.symm.trans hope'))
    obtain rfl := Option.some.inj (htree.symm.trans htree')
    have hwrite := Shared.traverse?_write (s := s) (hstore.bound _ _ hholder)
      { BTreeTraverse.new tree opeValue with requestAdd := some job.insert }
    refine ⟨_, _, hrun, hf.advanced ⟨fun _ _ h => h, fun _ _ h => h, fun i u hi h => ?_, fun q hq hi => ?_,
      fun q hq _ => ?_, fun id h => ?_, fun _ _ h => h, fun _ _ h => h⟩ hf.heap hf.forest hvalid hpending
      (hstore.write t _) ⟨⟨job.requestId, job.insert, node.ciphertext⟩, ⟨?_, rfl, rfl⟩, _, ⟨hholder, hwrite, ?_⟩, ?_⟩
      (fun i hi => .inl hi) ⟨[], by simp [Protocol.receive], rfl⟩ ⟨[], [], by simp, by simp [Protocol.receive], rfl⟩⟩
    · exact hstore.write_of_ne hholder h (fun he => hi (congrArg some he)) _
    · exact BTreeTraverseHolder.update_of_ne fun he => hi (congrArg some he.symm)
    · exact List.mem_append_left _ hq
    · simpa [Protocol.receive] using h
    · exact List.mem_append_right _ (by simp)
    · exact BTreeTraverseHolder.update_self ..
    · simp [BTreeTraverse.value, BTreeTraverse.new, hf.heap, hnode]

theorem Follows.value (hf : Follows answer s ((job, .value i t) :: hs) ws acks ids p)
    (hobject : s.traverse? t = some traverse) {ciphertext : Ciphertext} (hvalue : traverse.value s.heap = some ciphertext) :
    Follows answer s ((job, .send (.addTraverse { initRequestId := i, ciphertext })) :: hs) ws acks ids p := by
  obtain ⟨⟨_, _, shown⟩, ⟨hq, rfl, rfl⟩, traverse', hheld, hvalue'⟩ := hf.head
  obtain rfl := Option.some.inj (hobject.symm.trans hheld.object)
  obtain rfl := Option.some.inj (hvalue.symm.trans hvalue')
  exact hf.look ⟨⟨hq, rfl, rfl⟩, t, traverse, hheld⟩ (fun _ hi => .inl hi) rfl rfl

theorem Shared.getTraverse_held {s : Shared} {i : UInt32} {x : Option Nat} (h : s.holder[i]? = some x) :
    { s with holder := s.holder.insertIfNew i none } = s := by
  have hsame : s.holder.insertIfNew i none = s.holder := by
    refine Std.ExtTreeMap.ext_getElem? fun j => ?_
    rw [Std.ExtTreeMap.getElem?_insertIfNew, if_neg]
    rintro ⟨-, hmem⟩
    exact hmem (Std.ExtTreeMap.mem_iff_isSome_getElem?.mpr (by rw [h]; rfl))
  rw [hsame]

theorem Follows.addContinue (hf : Follows answer s ((job, .addContinue request) :: hs) ws acks ids p) {side : Side}
    (hside : direction request.compareResult = some side) (ht : s.holder[request.initRequestId]?.join = some t) :
    Follows answer s ((job, .goTo side request.initRequestId t) :: hs) ws acks ids p := by
  obtain ⟨hnew, q, hq, hresult, u, traverse, hheld⟩ := hf.head
  rw [hheld.holder] at ht
  obtain rfl := Option.some.inj ht
  exact hf.look ⟨hnew, q, hq, by rw [← hresult, hside], traverse, hheld⟩ (fun _ hi => .inl hi) rfl rfl

theorem Follows.addContinue_equal (hf : Follows answer s ((job, .addContinue request) :: hs) ws acks ids p)
    (hside : direction request.compareResult = none) :
    Catches answer s ((job, .send .addOk) :: hs) ws acks ids p := by
  obtain ⟨⟨hid, -⟩, q, ⟨hq, hi, hrequest⟩, hresult, u, traverse, hheld⟩ := hf.head
  obtain ⟨k, server, response, hk, hrun, hcontinued, hvalid, hpending⟩ := hf.take_continue hid hq job.env
  rw [hresult] at hside
  cases hcontinued with
  | moved hside' _ _ _ =>
    rw [hside] at hside'
    cases hside'
  | ended hside' _ _ _ _ =>
    rw [hside] at hside'
    cases hside'
  | equal _ =>
    have hsame : (p.server.holder.getTraverse q.initRequestId).1 = p.server.holder := by
      rw [BTreeTraverseHolder.getTraverse_of_stored (hi ▸ hheld.stored)]
    refine ⟨_, _, hrun, hf.advanced ⟨fun _ _ h => h, fun _ _ h => h, fun _ _ _ _ => rfl, fun q' _ _ => ?_,
      fun q' hq' hne => ?_, fun id h => ?_, fun _ _ h => h, fun _ _ h => h⟩ hf.heap hf.forest hvalid hpending hf.store
      trivial (fun i hi => by cases hi) ⟨[job.insert], by rw [← hrequest]; rfl, rfl⟩
      ⟨[], [], by simp, by simp [Protocol.receive], rfl⟩⟩
    · simp only [Protocol.receive, hsame]
    · exact mem_eraseIdx_of_ne hk hq' fun he => hne (by rw [he, hi]; rfl)
    · simpa [Protocol.receive] using h

theorem Follows.goTo (hf : Follows answer s ((job, .goTo side i t) :: hs) ws acks ids p)
    (hobject : s.traverse? t = some traverse) (hnode : s.heap[traverse.current]? = some node)
    (hchild : node.child side = some next) :
    Catches answer (s.write t { stepped side traverse with current := next }) ((job, .value i t) :: hs) ws acks ids p := by
  obtain ⟨⟨hid, -⟩, q, ⟨hq, rfl, hrequest⟩, hside, traverse', hheld⟩ := hf.head
  obtain rfl := Option.some.inj (hobject.symm.trans hheld.object)
  obtain ⟨k, server, response, hk, hrun, hcontinued, hvalid, hpending⟩ := hf.take_continue hid hq job.env
  have hstore := hf.store
  cases hcontinued with
  | equal hside' =>
    rw [hside] at hside'
    cases hside'
  | ended hside' ht hgo _ _ =>
    obtain rfl := Option.some.inj (hside.symm.trans hside')
    obtain rfl := Option.some.inj (Option.some.inj (hheld.stored.symm.trans ht))
    obtain ⟨node', hnode', hchild', -⟩ := BTreeTraverse.goTo_ended hgo
    rw [← hf.heap, hnode] at hnode'
    obtain rfl := Option.some.inj hnode'
    rw [hchild] at hchild'
    cases hchild'
  | moved hside' ht hgo hnext =>
    obtain rfl := Option.some.inj (hside.symm.trans hside')
    obtain rfl := Option.some.inj (Option.some.inj (hheld.stored.symm.trans ht))
    obtain ⟨rfl, node', next', hnode', hchild', rfl⟩ := BTreeTraverse.goTo_moved hgo
    rw [← hf.heap, hnode] at hnode'
    obtain rfl := Option.some.inj hnode'
    obtain rfl := Option.some.inj (hchild.symm.trans hchild')
    have hwrite := Shared.traverse?_write (s := s) (hstore.bound _ _ hheld.holder) { stepped side traverse with current := next }
    refine ⟨_, _, hrun, hf.advanced ⟨fun _ _ h => h, fun _ _ h => h, fun j u hne h => ?_, fun q' hq' hne => ?_,
      fun q' hq' hne => ?_, fun id h => ?_, fun _ _ h => h, fun _ _ h => h⟩ hf.heap hf.forest hvalid hpending
      (hstore.write t _) ⟨⟨q.initRequestId, q.request, _⟩, ⟨List.mem_append_right _ (List.mem_singleton.mpr rfl), rfl, hrequest⟩, _,
        ⟨hheld.holder, hwrite, ?_⟩, ?_⟩ (fun _ hi => .inl hi) ⟨[], by simp [Protocol.receive], rfl⟩
      ⟨[], [], by simp, by simp [Protocol.receive], rfl⟩⟩
    · exact hstore.write_of_ne hheld.holder h (fun he => hne (congrArg some he)) _
    · exact BTreeTraverseHolder.update_of_ne fun he => hne (congrArg some he.symm)
    · exact List.mem_append_left _ (mem_eraseIdx_of_ne hk hq' fun he => hne (congrArg some he.symm))
    · simpa [Protocol.receive] using h
    · exact BTreeTraverseHolder.update_self ..
    · simp only [BTreeTraverse.value, Shared.write_heap, hf.heap]
      rw [hnext]
      rfl

theorem Follows.goTo_missing (hf : Follows answer s ((job, .goTo side i t) :: hs) ws acks ids p)
    (hobject : s.traverse? t = some traverse) :
    Follows answer (s.write t (stepped side traverse)) ((job, .newNode side i t) :: hs) ws acks ids p := by
  obtain ⟨hnew, q, hq, hside, traverse', hheld⟩ := hf.head
  obtain rfl := Option.some.inj (hobject.symm.trans hheld.object)
  have hstore := hf.store
  have hwrite := Shared.traverse?_write (s := s) (hstore.bound _ _ hheld.holder) (stepped side traverse)
  refine hf.advanced ⟨fun _ _ h => h, fun _ _ h => h, fun j u hne h => ?_, fun _ _ _ => rfl, fun _ h _ => h,
    fun _ h => .inl h, fun _ _ h => h, fun _ _ h => h⟩ hf.heap hf.forest hf.valid hf.pending (hstore.write t _)
    ⟨hnew, q, hq, hside, traverse, hheld.holder, hwrite, hheld.stored⟩ (fun _ hi => .inl hi) ⟨[], by simp, rfl⟩
    ⟨[], [], by simp, by simp, rfl⟩
  exact hstore.write_of_ne hheld.holder h (fun he => hne (congrArg some he)) _

theorem Follows.kept (hf : Follows answer s hs ws acks ids p) {q : Pending} (hq : q ∈ p.pending)
    (hstored : p.server.holder.traverses[q.initRequestId]? = some (some traverse)) :
    traverse.requestAdd = some q.request ∧ traverse.current < s.heap.length := by
  obtain ⟨ts, hi⟩ := hf.valid
  obtain ⟨t, u, ds, hw⟩ := hi.waiting q hq
  obtain rfl := Option.some.inj (Option.some.inj (hstored.symm.trans hw.stored))
  refine ⟨hw.request, ?_⟩
  rw [hf.heap]
  exact hi.forest.lt_length ⟨u, hw.tree, hw.sits⟩

theorem owed_addRow (h : s.traverse? t = some traverse) :
    owed s job (.addRow i t) = some (job.addCall (job.withCode (opeFieldName job.insert.row) traverse.path)) := by
  rw [owed, h, Option.map_some]

theorem Follows.newNode (hf : Follows answer s ((job, .newNode side i t) :: hs) ws acks ids p)
    (hobject : s.traverse? t = some mine) (hnode : s.heap[mine.current]? = some node)
    (hchild : node.child side = none) :
    Catches answer
      ({ s with heap := s.heap.set mine.current (node.setChild side s.heap.length) ++ [BTreeNode.new mine.ciphertext] }.write
        t { mine with path := pathEnd job.env.undef mine.path mine.pathLength, current := s.heap.length })
      ((job, .addRow i t) :: hs) ws acks ids p := by
  obtain ⟨⟨hid, habsent⟩, q, ⟨hq, rfl, hrequest⟩, hside, traverse, hheld⟩ := hf.head
  obtain rfl := Option.some.inj (hobject.symm.trans hheld.object)
  obtain ⟨k, server, response, hk, hrun, hcontinued, hvalid, hpending⟩ := hf.take_continue hid hq job.env
  have hstore := hf.store
  have hkept := (hf.kept hq hheld.stored).1
  cases hcontinued with
  | equal hside' =>
    rw [hside] at hside'
    cases hside'
  | moved hside' ht hgo _ =>
    obtain rfl := Option.some.inj (hside.symm.trans hside')
    obtain rfl := Option.some.inj (Option.some.inj (hheld.stored.symm.trans ht))
    obtain ⟨-, node', next', hnode', hchild', -⟩ := BTreeTraverse.goTo_moved hgo
    rw [← hf.heap] at hnode'
    obtain rfl := Option.some.inj (hnode.symm.trans hnode')
    rw [hchild] at hchild'
    cases hchild'
  | ended hside' ht hgo hr hrow =>
    obtain rfl := Option.some.inj (hside.symm.trans hside')
    obtain rfl := Option.some.inj (Option.some.inj (hheld.stored.symm.trans ht))
    obtain ⟨node', hnode', -, rfl, rfl⟩ := BTreeTraverse.goTo_ended hgo
    rw [← hf.heap] at hnode'
    obtain rfl := Option.some.inj (hnode.symm.trans hnode')
    obtain rfl := Option.some.inj (hr.symm.trans hkept)
    have hwrite : ∀ heap traverse, ({ s with heap }.write t traverse).traverse? t = some traverse :=
      fun _ _ => Shared.traverse?_write (hstore.bound _ _ hheld.holder) _
    refine ⟨_, _, hrun, hf.advanced ⟨fun _ _ h => h, fun _ _ h => h, fun j u hne h => ?_, fun q' hq' hne => ?_,
      fun q' hq' hne => ?_, fun id h => ?_, fun _ _ h => h, fun u c h => ?_⟩ ?_ hf.forest hvalid hpending ?_
      ⟨habsent, hheld.holder, _, hwrite _ _, ?_⟩ (fun _ hi => .inl hi)
      ⟨[job.insert], by rw [← hrequest]; rfl, rfl⟩ ⟨[], _, by simp, Database.add_adds .., ?_⟩⟩
    · exact hstore.write_of_ne hheld.holder h (fun he => hne (congrArg some he)) _
    · have hother : q'.initRequestId ≠ job.requestId := fun he => hid (he ▸ hf.pending q' hq')
      show ((p.server.holder.update _ _).removeTraverse job.requestId).traverses[q'.initRequestId]? = _
      rw [BTreeTraverseHolder.removeTraverse_of_ne hother, BTreeTraverseHolder.update_of_ne]
      exact fun he => hne (congrArg some he.symm)
    · exact mem_eraseIdx_of_ne hk hq' fun he => hne (congrArg some he.symm)
    · simpa [Protocol.receive] using h
    · exact value_grown (grown_hang hnode _ _ _) h
    · simp only [Protocol.receive, Shared.write_heap, stepped, hf.heap]
    · exact ⟨hstore.keys, fun j u h => by simpa [Shared.write] using hstore.bound j u h, hstore.apart⟩
    · rw [← hrequest]
      exact hkept
    · rw [owed_addRow (hwrite _ _)]
      simp [owed, Job.addCall, Job.withCode, hrow, hrequest, stepped]

theorem Follows.addRow (hf : Follows answer s ((job, .addRow i t) :: hs) ws acks ids p)
    (hobject : s.traverse? t = some traverse) :
    traverse.requestAdd = some job.insert ∧
    Follows answer
      ((s.write t { traverse with requestAdd := some (job.withCode (opeFieldName job.insert.row) traverse.path) }).add job.env
        (job.withCode (opeFieldName job.insert.row) traverse.path))
      ((job, .removeTraverse) :: hs) ws acks ids p := by
  obtain ⟨habsent, hholder, traverse', hobject', hkept⟩ := hf.head
  obtain rfl := Option.some.inj (hobject.symm.trans hobject')
  have hstore := hf.store
  have hwritten := hstore.write t { traverse with requestAdd := some (job.withCode (opeFieldName job.insert.row) traverse.path) }
  refine ⟨hkept, hf.advanced ⟨fun _ _ h => h, fun _ _ h => h, fun j u hne h => ?_, fun _ _ _ => rfl, fun _ h _ => h,
    fun _ h => .inl h, fun _ _ h => h, fun _ _ h => h⟩ hf.heap hf.forest hf.valid hf.pending
    ⟨hwritten.keys, hwritten.bound, hwritten.apart⟩ habsent (fun i hi => by cases hi) ⟨[], by simp, rfl⟩
    ⟨_, [], Database.add_adds .., by simp, ?_⟩⟩
  · exact hstore.write_of_ne hholder h (fun he => hne (congrArg some he)) _
  · rw [owed_addRow hobject]
    rfl

theorem Follows.removeTraverse (hf : Follows answer s ((job, .removeTraverse) :: hs) ws acks ids p) :
    s.holder[job.requestId]? = none ∧ { s with holder := s.holder.erase job.requestId } = s ∧
    Follows answer s ((job, .send .addOk) :: hs) ws acks ids p := by
  have habsent : s.holder[job.requestId]? = none := hf.head
  have hsame : s.holder.erase job.requestId = s.holder := by
    refine Std.ExtTreeMap.ext_getElem? fun j => ?_
    rw [Std.ExtTreeMap.getElem?_erase]
    split
    · next hj =>
      obtain rfl := Std.compare_eq_iff_eq.mp hj
      exact habsent.symm
    · rfl
  exact ⟨habsent, by rw [hsame], hf.look trivial (fun i hi => by cases hi) rfl rfl⟩

/-- **A step of a handler**: one-step handlers do as much. -/
theorem Follows.step (hf : Follows answer s ((job, stage) :: hs) ws acks ids p) (hcurrent : s.Current job stage)
    (h : s.advance job stage = some (s', stage')) : Catches answer s' ((job, stage') :: hs) ws acks ids p := by
  cases stage with
  | add =>
    simp only [Shared.advance] at h
    split at h
    · next hope =>
      cases h
      exact hf.add_plain hope
    next opeField opeValue hope =>
    split at h
    · cases h
      have hstands : Stands answer s p job (.createTree opeField opeValue) := ⟨hf.head, hope⟩
      exact (hf.look hstands (fun i hi => by cases hi) rfl rfl).catches
    · next tree htree =>
      cases h
      have hstands : Stands answer s p job (.createTraverse tree opeValue) := ⟨hf.head, ⟨opeField, hope⟩, htree⟩
      exact (hf.look hstands (fun i hi => by cases hi) rfl rfl).catches
  | createTree opeField opeValue =>
    cases h
    exact hf.createTree hcurrent
  | addRoot opeField =>
    cases h
    exact Follows.catches (hf.pay rfl trivial rfl rfl rfl)
  | createTraverse tree opeValue =>
    cases h
    exact hf.createTraverse.catches
  | keepRequest t =>
    obtain ⟨traverse, hobject, he⟩ := Option.map_eq_some_iff.mp h
    cases he
    exact hf.keepRequest hobject
  | addContinue request =>
    obtain ⟨-, q, -, -, u, traverse, hheld⟩ := hf.head
    simp only [Shared.advance, Shared.getTraverse_held hheld.holder] at h
    split at h
    · next hside =>
      cases h
      exact hf.addContinue_equal hside
    · next side hside =>
      obtain ⟨t, ht, he⟩ := Option.map_eq_some_iff.mp h
      cases he
      exact (hf.addContinue hside ht).catches
  | goTo side i t =>
    obtain ⟨traverse, hobject, h⟩ := Option.bind_eq_some_iff.mp h
    obtain ⟨node, hnode, h⟩ := Option.map_eq_some_iff.mp h
    split at h
    · next next hchild =>
      cases h
      exact hf.goTo hobject hnode hchild
    · cases h
      exact (hf.goTo_missing hobject).catches
  | newNode side i t =>
    obtain ⟨traverse, hobject, h⟩ := Option.bind_eq_some_iff.mp h
    obtain ⟨node, hnode, h⟩ := Option.map_eq_some_iff.mp h
    cases h
    exact hf.newNode hobject hnode (hcurrent traverse node hobject hnode)
  | value i t =>
    obtain ⟨traverse, hobject, h⟩ := Option.bind_eq_some_iff.mp h
    obtain ⟨ciphertext, hvalue, h⟩ := Option.map_eq_some_iff.mp h
    cases h
    exact (hf.value hobject hvalue).catches
  | addRow i t =>
    obtain ⟨traverse, hobject, h⟩ := Option.bind_eq_some_iff.mp h
    obtain ⟨requestAdd, hrequest, h⟩ := Option.map_eq_some_iff.mp h
    obtain ⟨hkept, hf'⟩ := hf.addRow hobject
    obtain rfl := Option.some.inj (hkept.symm.trans hrequest)
    cases h
    exact hf'.catches
  | removeTraverse =>
    obtain ⟨habsent, hsame, hf'⟩ := hf.removeTraverse
    simp only [Shared.advance, habsent, Option.join_none] at h
    cases h
    rw [hsame]
    exact hf'.catches
  | send response => cases h

/-- No handler follows a pointer it should not. -/
theorem Follows.advances (hf : Follows answer s ((job, stage) :: hs) ws acks ids p)
    (hsend : ∀ response, stage ≠ .send response) : ∃ r, s.advance job stage = some r := by
  have hnode : ∀ {q : Pending} {t : Nat} {mine traverse : BTreeTraverse}, q ∈ p.pending →
      Held s p q.initRequestId t mine traverse → mine.current = traverse.current →
      ∃ node, s.heap[mine.current]? = some node := by
    intro q t mine traverse hq hheld hcurrent
    have hlt := (hf.kept hq hheld.stored).2
    rw [← hcurrent] at hlt
    exact ⟨_, List.getElem?_eq_getElem hlt⟩
  cases stage with
  | add =>
    simp only [Shared.advance]
    split
    · exact ⟨_, rfl⟩
    split
    · exact ⟨_, rfl⟩
    · exact ⟨_, rfl⟩
  | createTree _ _ => exact ⟨_, rfl⟩
  | addRoot _ => exact ⟨_, rfl⟩
  | createTraverse _ _ => exact ⟨_, rfl⟩
  | keepRequest t =>
    obtain ⟨-, -, tree, opeValue, -, hobject⟩ := hf.head
    simp only [Shared.advance, hobject]
    exact ⟨_, rfl⟩
  | addContinue request =>
    obtain ⟨-, q, -, -, t, traverse, hheld⟩ := hf.head
    simp only [Shared.advance, hheld.holder]
    split
    · exact ⟨_, rfl⟩
    · exact ⟨_, rfl⟩
  | goTo side i t =>
    obtain ⟨-, q, ⟨hq, rfl, -⟩, -, traverse, hheld⟩ := hf.head
    obtain ⟨node, hnode⟩ := hnode hq hheld rfl
    simp only [Shared.advance, hheld.object, Option.bind_some, hnode]
    exact ⟨_, rfl⟩
  | newNode side i t =>
    obtain ⟨-, q, ⟨hq, rfl, -⟩, -, traverse, hheld⟩ := hf.head
    obtain ⟨node, hnode⟩ := hnode hq hheld rfl
    simp only [Shared.advance, hheld.object, Option.bind_some, hnode]
    exact ⟨_, rfl⟩
  | value i t =>
    obtain ⟨q, -, traverse, hheld, hvalue⟩ := hf.head
    simp only [Shared.advance, hheld.object, Option.bind_some, hvalue]
    exact ⟨_, rfl⟩
  | addRow i t =>
    obtain ⟨-, -, traverse, hobject, hrequest⟩ := hf.head
    simp only [Shared.advance, hobject, Option.bind_some, hrequest]
    exact ⟨_, rfl⟩
  | removeTraverse => exact ⟨_, rfl⟩
  | send response => exact absurd rfl (hsend response)

/-! ## Messages and responses -/

theorem Follows.receive (hf : Follows answer s hs ws acks ids p) {ws' : List Pending} (hid : job.requestId ∉ ids)
    (hws : ∀ q ∈ ws', q ∈ ws) (hstands : New s p job → Stands answer s p job stage)
    (howners : (ws'.map (·.initRequestId) ++ ((owner job stage).toList ++ hs.filterMap fun h => owner h.1 h.2)).Perm
      (ws.map (·.initRequestId) ++ hs.filterMap fun h => owner h.1 h.2))
    (hdone : done job stage = none) (howed : owed s job stage = none) :
    Follows answer s ((job, stage) :: hs) ws' acks (ids ++ [job.requestId]) p := by
  have hstore := hf.store
  have hnew : New s p job := by
    refine ⟨fun hmem => hid (hf.used _ hmem), ?_⟩
    cases hx : s.holder[job.requestId]? with
    | none => rfl
    | some x => exact absurd (hstore.keys _ x hx) hid
  exact {
    heap := hf.heap
    forest := hf.forest
    valid := hf.valid
    pending := hf.pending
    used := fun id h => List.mem_append_left _ (hf.used id h)
    store := ⟨fun i x h => List.mem_append_left _ (hstore.keys i x h), hstore.bound, hstore.apart⟩
    stands := fun h hh => by
      rcases List.mem_cons.mp hh with rfl | hh
      · exact hstands hnew
      · exact hf.stands h hh
    jobs := fun h hh => by
      rcases List.mem_cons.mp hh with rfl | hh
      · exact List.mem_append_right _ (List.mem_singleton.mpr rfl)
      · exact List.mem_append_left _ (hf.jobs h hh)
    distinct := by
      refine List.nodup_cons.mpr ⟨fun hmem => ?_, hf.distinct⟩
      obtain ⟨h, hh, he⟩ := List.mem_map.mp hmem
      have hin := hf.jobs h hh
      rw [he] at hin
      exact hid hin
    waiting := fun q hq => hf.waiting q (hws q hq)
    owners := by
      rw [filterMap_cons_toList]
      exact howners.nodup_iff.mpr hf.owners
    acknowledged := by
      rw [filterMap_cons_toList, hdone]
      exact hf.acknowledged
    adds := by
      rw [filterMap_cons_toList, howed]
      exact hf.adds }

theorem Follows.reply (hf : Follows answer s ((job, stage) :: hs) ws acks ids p) {ws' : List Pending}
    {acks' : List RequestAdd} (hws : ∀ q ∈ ws', q ∈ ws ∨ q ∈ p.pending ∧ Stored s p q.initRequestId)
    (howners : ws'.map (·.initRequestId) = ws.map (·.initRequestId) ++ (owner job stage).toList)
    (hacks : acks' = acks ++ (done job stage).toList) (howed : owed s job stage = none) :
    Follows answer s hs ws' acks' ids p where
  heap := hf.heap
  forest := hf.forest
  valid := hf.valid
  pending := hf.pending
  used := hf.used
  store := hf.store
  stands := fun h hh => hf.stands h (List.mem_cons_of_mem _ hh)
  jobs := fun h hh => hf.jobs h (List.mem_cons_of_mem _ hh)
  distinct := (List.nodup_cons.mp hf.distinct).2
  waiting := fun q hq => (hws q hq).elim (hf.waiting q) id
  owners := by
    have hold := hf.owners
    rwa [filterMap_cons_toList, ← List.append_assoc, ← howners] at hold
  acknowledged := by
    have hold := hf.acknowledged
    rwa [filterMap_cons_toList, ← List.append_assoc, ← hacks] at hold
  adds := by
    have hold := hf.adds
    rwa [filterMap_cons_toList, howed] at hold

/-! ## The daemon -/

variable {d d' : Daemon} {k : Nat}

/-- The handlers at work. -/
def atWork (d : Daemon) : List (Job × Stage) := d.workers.filterMap id

def Matches (answer : RequestAdd → Ciphertext → Int32) (d : Daemon) (p : Protocol) : Prop :=
  Follows answer d.shared d.atWork d.waiting d.acknowledged d.used p

/-- The handlers of the other workers. -/
def others (d : Daemon) (k : Nat) : List (Job × Stage) := (d.workers.eraseIdx k).filterMap id

theorem atWork_perm {w : Option (Job × Stage)} (h : d.workers[k]? = some w) :
    d.atWork.Perm (w.toList ++ d.others k) := by
  obtain ⟨hlt, rfl⟩ := List.getElem?_eq_some_iff.mp h
  have hperm := (List.getElem_cons_eraseIdx_perm hlt).symm.filterMap id
  rwa [filterMap_cons_toList] at hperm

theorem set_perm {w : Option (Job × Stage)} (h : d.workers[k]? = some w) (w' : Option (Job × Stage)) :
    (w'.toList ++ d.others k).Perm ((d.workers.set k w').filterMap id) := by
  have hperm := ((List.set_perm_cons_eraseIdx (List.getElem?_eq_some_iff.mp h).1 w').symm.filterMap id)
  rwa [filterMap_cons_toList] at hperm

theorem Matches.init (answer : RequestAdd → Ciphertext → Int32) (n : Nat) :
    Matches answer (start n) Protocol.init := by
  have hnone : (start n).atWork = [] := by simp [atWork, start]
  rw [Matches, hnone]
  exact {
    heap := rfl
    forest := rfl
    valid := ⟨[], Valid.init answer True⟩
    pending := by simp [Protocol.init]
    used := by simp [Protocol.init]
    store := ⟨by simp [start, Shared.init], by simp [start, Shared.init], by simp [start, Shared.init]⟩
    stands := by simp
    jobs := by simp
    distinct := by simp
    waiting := by simp [start]
    owners := by simp [start]
    acknowledged := by simp [start, Protocol.init]
    adds := by simp [start, Shared.init, Protocol.init, Server.init] }

theorem Matches.add {requestId : UInt32} (hm : Matches answer d p) (hk : d.workers[k]? = some none)
    (hid : requestId ∉ d.used) (insert : RequestAdd) (env : Env) :
    Matches answer { d with
      workers := d.workers.set k (some (⟨requestId, insert, env⟩, .add))
      used := d.used ++ [requestId] } p := by
  have hf : Follows answer d.shared (d.others k) d.waiting d.acknowledged d.used p := Follows.perm hm (atWork_perm hk)
  have hf' : Follows answer d.shared ((⟨requestId, insert, env⟩, .add) :: d.others k) d.waiting d.acknowledged
      (d.used ++ [requestId]) p := hf.receive hid (fun _ h => h) (fun hnew => hnew) (.refl _) rfl rfl
  exact hf'.perm (set_perm hk (some (⟨requestId, insert, env⟩, .add)))

theorem Matches.addContinue {requestId : UInt32} (hm : Matches answer d p) (hk : d.workers[k]? = some none)
    (hid : requestId ∉ d.used) {j : Nat} {q : Pending} (hj : d.waiting[j]? = some q) (env : Env) :
    Matches answer { d with
      workers := d.workers.set k (some (⟨requestId, q.request, env⟩,
        .addContinue { initRequestId := q.initRequestId, compareResult := answer q.request q.ciphertext }))
      waiting := d.waiting.eraseIdx j
      used := d.used ++ [requestId] } p := by
  have hf : Follows answer d.shared (d.others k) d.waiting d.acknowledged d.used p := Follows.perm hm (atWork_perm hk)
  obtain ⟨hq, hstored⟩ := hf.waiting q (List.mem_of_getElem? hj)
  -- the traversal passes from the client's hand into the handler's
  have howners : ((d.waiting.eraseIdx j).map (·.initRequestId) ++
      ([q.initRequestId] ++ (d.others k).filterMap fun h => owner h.1 h.2)).Perm
      (d.waiting.map (·.initRequestId) ++ (d.others k).filterMap fun h => owner h.1 h.2) := by
    obtain ⟨hlt, rfl⟩ := List.getElem?_eq_some_iff.mp hj
    have hperm := (List.getElem_cons_eraseIdx_perm hlt).map (·.initRequestId)
    refine .trans ?_ (hperm.append_right _)
    rw [List.map_cons]
    exact List.perm_middle
  have hf' : Follows answer d.shared ((⟨requestId, q.request, env⟩,
      .addContinue { initRequestId := q.initRequestId, compareResult := answer q.request q.ciphertext }) :: d.others k)
      (d.waiting.eraseIdx j) d.acknowledged (d.used ++ [requestId]) p :=
    hf.receive hid (fun _ h => List.mem_of_mem_eraseIdx h)
      (fun hnew => ⟨hnew, q, ⟨hq, rfl, rfl⟩, rfl, hstored⟩) howners rfl rfl
  exact hf'.perm (set_perm hk (some (_, _)))

theorem Matches.reply {response : Response} (hm : Matches answer d p)
    (hk : d.workers[k]? = some (some (job, .send response))) : Matches answer (d.reply k job response) p := by
  have hf : Follows answer d.shared ((job, .send response) :: d.others k) d.waiting d.acknowledged d.used p :=
    Follows.perm hm (atWork_perm hk)
  cases response with
  | addTraverse r =>
    obtain ⟨hq, hstored⟩ := hf.head
    have hf' : Follows answer d.shared (d.others k) (d.waiting ++ [⟨r.initRequestId, job.insert, r.ciphertext⟩])
        d.acknowledged d.used p := by
      refine hf.reply (fun q hmem => ?_) (by simp [owner]) (by simp [done]) rfl
      rcases List.mem_append.mp hmem with hmem | hmem
      · exact .inl hmem
      · obtain rfl := List.mem_singleton.mp hmem
        exact .inr ⟨hq.1, hstored⟩
    exact hf'.perm (set_perm hk none)
  | addOk =>
    have hf' : Follows answer d.shared (d.others k) d.waiting (d.acknowledged ++ [job.insert]) d.used p :=
      hf.reply (fun q hq => .inl hq) (by simp [owner]) rfl rfl
    exact hf'.perm (set_perm hk none)
  | getOk _ => cases hf.head
  | getEmpty => cases hf.head

/-- **Whatever happens next**, one-step handlers do as much. -/
theorem Matches.step {a : Act} (hm : Matches answer d p) (ha : Ordered d a) (h : step answer d a = some d') :
    ∃ bs p', Runs (Guarded (ofPartial (Protocol.step answer)) Protocol.Fresh) p bs p' ∧ Matches answer d' p' := by
  cases a with
  | add k id request env =>
    obtain ⟨hk, rfl⟩ := step_add h
    exact ⟨[], p, .nil, hm.add hk ha request env⟩
  | addContinue k id j env =>
    obtain ⟨q, hk, hj, rfl⟩ := step_addContinue h
    exact ⟨[], p, .nil, hm.addContinue hk ha hj env⟩
  | advance k =>
    obtain ⟨job, stage, hk, ⟨response, rfl, rfl⟩ | ⟨s', stage', hs, rfl⟩⟩ := step_advance h
    · exact ⟨[], p, .nil, hm.reply hk⟩
    · have hf : Follows answer d.shared ((job, stage) :: d.others k) d.waiting d.acknowledged d.used p :=
        Follows.perm hm (atWork_perm hk)
      obtain ⟨bs, p', hrun, hf'⟩ := hf.step (ha job stage hk) hs
      exact ⟨bs, p', hrun, hf'.perm (set_perm hk (some (job, stage')))⟩

/-- What the workers have done, in terms of one-step handlers. -/
structure Linearized (answer : RequestAdd → Ciphertext → Int32) (d : Daemon) (p : Protocol) : Prop where
  heap : d.shared.heap = p.server.heap
  forest : d.shared.forest = p.server.forest
  waiting : ∀ q ∈ d.waiting, q ∈ p.pending
  acknowledged : (d.acknowledged ++ d.atWork.filterMap fun h => done h.1 h.2).Perm p.answered
  adds : (d.shared.database.adds ++ d.atWork.filterMap fun h => owed d.shared h.1 h.2).Perm p.server.database.adds
  /-- Every worker with a message can go on. -/
  advances : ∀ (k : Nat) w, d.workers[k]? = some (some w) → ∃ d', step answer d (.advance k) = some d'

theorem Matches.advances (hm : Matches answer d p) {w : Job × Stage} (hk : d.workers[k]? = some (some w)) :
    ∃ d', Daemon.step answer d (.advance k) = some d' := by
  obtain ⟨job, stage⟩ := w
  have hf : Follows answer d.shared ((job, stage) :: d.others k) d.waiting d.acknowledged d.used p :=
    Follows.perm hm (atWork_perm hk)
  by_cases hsend : ∃ response, stage = .send response
  · obtain ⟨response, rfl⟩ := hsend
    exact ⟨d.reply k job response, by simp only [Daemon.step, hk]⟩
  · rw [not_exists] at hsend
    obtain ⟨r, hr⟩ := hf.advances hsend
    simp only [Daemon.step, hk, hr]
    cases stage with
    | send response => exact absurd rfl (hsend response)
    | _ => exact ⟨_, rfl⟩

theorem Matches.linearized (hm : Matches answer d p) : Linearized answer d p where
  heap := hm.heap
  forest := hm.forest
  waiting := fun q hq => (hm.waiting q hq).1
  acknowledged := hm.acknowledged
  adds := hm.adds
  advances := fun _ _ hk => hm.advances hk

/-- **Handlers may be taken as one step.** However many workers there are and however
they get in each other's way, as long as none is overtaken between a check and
what it does on it, one-step handlers do as much in some order: they make the same
trees in the same memory, answer the same inserts, and hand the same rows to the
tables, but for those that workers are about to answer and to hand over. And no
worker ever stops. -/
theorem workers_linearize (answer : RequestAdd → Ciphertext → Int32) {n : Nat} {as : List Act}
    (h : Runs (Guarded (ofPartial (step answer)) Ordered) (start n) as d) :
    ∃ bs p, Runs (Guarded (ofPartial (Protocol.step answer)) Protocol.Fresh) Protocol.init bs p ∧ Linearized answer d p ∧
      ∀ as' d', Runs (Guarded (ofPartial (step answer)) Ordered) d as' d' →
        ∃ bs' p', Runs (Guarded (ofPartial (Protocol.step answer)) Protocol.Fresh) p bs' p' ∧ Linearized answer d' p' := by
  have hrun : ∀ {d d' : Daemon} {p : Protocol} {as : List Act}, Matches answer d p →
      Runs (Guarded (ofPartial (step answer)) Ordered) d as d' →
      ∃ bs p', Runs (Guarded (ofPartial (Protocol.step answer)) Protocol.Fresh) p bs p' ∧ Matches answer d' p' :=
    fun hm h => h.simulate (R := Matches answer) (fun _ _ _ _ hm hs => hm.step hs.1 hs.2) hm
  obtain ⟨bs, p, hbs, hm⟩ := hrun (Matches.init answer n) h
  refine ⟨bs, p, hbs, hm.linearized, fun as' d' h' => ?_⟩
  obtain ⟨bs', p', hbs', hm'⟩ := hrun hm h'
  exact ⟨bs', p', hbs', hm'.linearized⟩

theorem ordered_add {requestId : UInt32} {request : RequestAdd} {env : Env} (h : requestId ∉ d.used) :
    Ordered d (.add k requestId request env) := h

theorem ordered_advance {stage : Stage} (hk : d.workers[k]? = some (some (job, stage)))
    (hcurrent : d.shared.Current job stage) : Ordered d (.advance k) := by
  intro job' stage' hk'
  rw [hk] at hk'
  cases hk'
  exact hcurrent

/-- Two workers handle two inserts at once, once the table has a root. -/
theorem workers_linearize_two :
    ∃ d, Runs (Guarded (ofPartial (step (Protocol.honest compare))) Ordered) (start 2)
        [.add 0 1 (.ofValue [5]) .calm, .advance 0, .advance 0, .advance 0, .advance 0,
          .add 0 2 (.ofValue [3]) .calm, .add 1 3 (.ofValue [7]) .calm, .advance 0, .advance 1, .advance 1, .advance 0,
          .advance 0, .advance 1, .advance 1, .advance 1, .advance 0, .advance 0] d ∧
      ∃ bs p, Runs (Guarded (ofPartial (Protocol.step (Protocol.honest compare))) Protocol.Fresh) Protocol.init bs p ∧
        Linearized (Protocol.honest compare) d p := by
  have hrun : Runs (Guarded (ofPartial (step (Protocol.honest compare))) Ordered) (start 2)
      [.add 0 1 (.ofValue [5]) .calm, .advance 0, .advance 0, .advance 0, .advance 0,
        .add 0 2 (.ofValue [3]) .calm, .add 1 3 (.ofValue [7]) .calm, .advance 0, .advance 1, .advance 1, .advance 0,
        .advance 0, .advance 1, .advance 1, .advance 1, .advance 0, .advance 0] _ :=
    .cons ⟨ordered_add (by decide), rfl⟩ (.cons ⟨ordered_advance rfl trivial, rfl⟩
      (.cons ⟨ordered_advance rfl rfl, rfl⟩ (.cons ⟨ordered_advance rfl trivial, rfl⟩
      (.cons ⟨ordered_advance rfl trivial, rfl⟩ (.cons ⟨ordered_add (by decide), rfl⟩ (.cons ⟨ordered_add (by decide), rfl⟩
      (.cons ⟨ordered_advance rfl trivial, rfl⟩ (.cons ⟨ordered_advance rfl trivial, rfl⟩
      (.cons ⟨ordered_advance rfl trivial, rfl⟩ (.cons ⟨ordered_advance rfl trivial, rfl⟩
      (.cons ⟨ordered_advance rfl trivial, rfl⟩ (.cons ⟨ordered_advance rfl trivial, rfl⟩
      (.cons ⟨ordered_advance rfl trivial, rfl⟩ (.cons ⟨ordered_advance rfl trivial, rfl⟩
      (.cons ⟨ordered_advance rfl trivial, rfl⟩ (.cons ⟨ordered_advance rfl trivial, rfl⟩ .nil))))))))))))))))
  obtain ⟨bs, p, hbs, hl, -⟩ := workers_linearize _ hrun
  exact ⟨_, hrun, bs, p, hbs, hl⟩

end Daemon

end Zql
