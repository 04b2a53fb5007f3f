/-
Inserts on their way come to an end. Nothing bounds the number of steps of
one traversal by itself: while it walks down, other inserts hang leaves below
it. But a leaf costs its insert, so with no new `RequestAdd` coming in the
inserts waiting have a bounded amount of walking left between them (`work`),
and each answer of a client takes from it, in whatever order they come and
whatever the clients are shown.
-/
import Zql.Dangling
import Zql.Order

namespace Zql

open Dyadic SearchTree Transition

open Strings (Gone Remains)

namespace Protocol

variable {answer : RequestAdd → Ciphertext → Int32} {seen : Prop}

/-- How many steps the traversal of an insert on its way has made. -/
def depth (p : Protocol) (q : Pending) : Nat :=
  match p.server.holder.traverses[q.initRequestId]? with
  | some (some t) => t.pathLength.toNat
  | _ => 0

/-- As many nodes as there can ever be, once everyone waiting is answered. -/
def nodesToBe (p : Protocol) : Nat := p.server.heap.length + p.pending.length

/-- The steps the inserts on their way have left, at most. -/
def work (p : Protocol) : Nat := (p.pending.map fun q => p.nodesToBe - p.depth q).sum

/-- A client answers, and no new insert comes. -/
def Answering (p : Protocol) : Act → Prop
  | .add _ _ _ => False
  | .addContinue id k env => Apart p (.addContinue id k env)

theorem Answering.apart {p : Protocol} {a : Act} (h : Answering p a) : Apart p a := by
  cases a with
  | add _ _ _ => exact h.elim
  | addContinue _ _ _ => exact h

/-- An insert on its way stands above the last node. -/
theorem Waiting.depth_lt {p : Protocol} {ts : List (BinaryTree Addr)} {q : Pending} {t : BTreeTraverse}
    {u : BinaryTree Addr} {ds : Position} (hi : Valid answer seen p ts) (hw : Waiting answer seen p.server ts q t u ds) :
    p.depth q < p.server.heap.length := by
  have hheight := (hi.forest.laid u hw.tree).height_le (hi.forest.tree_nodup hw.tree)
  have hlt := length_lt_height hw.sits
  simp only [depth, hw.stored, hw.length]
  omega

theorem work_split {p : Protocol} {k : Nat} {q : Pending} (hq : p.pending[k]? = some q) :
    p.work = p.nodesToBe - p.depth q + ((p.pending.eraseIdx k).map fun q' => p.nodesToBe - p.depth q').sum := by
  obtain ⟨hlt, rfl⟩ := List.getElem?_eq_some_iff.mp hq
  have hperm := (List.getElem_cons_eraseIdx_perm hlt).map fun q' => p.nodesToBe - p.depth q'
  rw [work, ← hperm.sum_eq, List.map_cons, List.sum_cons]

/-- The work of the others, when their traversals are kept and no more nodes
are to be. -/
theorem others_le {p p' : Protocol} {qs : List Pending} (hnodes : p'.nodesToBe ≤ p.nodesToBe)
    (hkept : ∀ q ∈ qs, p'.server.holder.traverses[q.initRequestId]? = p.server.holder.traverses[q.initRequestId]?) :
    (qs.map fun q => p'.nodesToBe - p'.depth q).sum ≤ (qs.map fun q => p.nodesToBe - p.depth q).sum := by
  refine List.sum_le_sum fun q hq => ?_
  have hdepth : p'.depth q = p.depth q := by simp only [depth, hkept q hq]
  omega

theorem length_erase {p : Protocol} {k : Nat} {q : Pending} (hq : p.pending[k]? = some q) :
    (p.pending.eraseIdx k).length + 1 = p.pending.length := by
  obtain ⟨hlt, -⟩ := List.getElem?_eq_some_iff.mp hq
  rw [List.length_eraseIdx_of_lt hlt]
  omega

/-- An insert that is done leaves the others their work: the leaf it may have
hung was counted. -/
theorem work_done {p p' : Protocol} {k : Nat} {q : Pending} (hq : p.pending[k]? = some q)
    (hdepth : p.depth q < p.server.heap.length) (hpending : p'.pending = p.pending.eraseIdx k)
    (hheap : p'.server.heap.length ≤ p.server.heap.length + 1)
    (hkept : ∀ q' ∈ p.pending.eraseIdx k,
      p'.server.holder.traverses[q'.initRequestId]? = p.server.holder.traverses[q'.initRequestId]?) :
    p'.work < p.work := by
  have hlength := length_erase hq
  have hnodes : p'.nodesToBe ≤ p.nodesToBe := by simp only [nodesToBe, hpending]; omega
  have hle := others_le hnodes hkept
  have hleft : 0 < p.nodesToBe - p.depth q := by simp only [nodesToBe]; omega
  rw [work_split hq, work, hpending]
  omega

/-- An insert that goes on is a step deeper. -/
theorem work_moved {p p' : Protocol} {k : Nat} {q q' : Pending} (hq : p.pending[k]? = some q)
    (hdepth : p.depth q < p.server.heap.length) (hpending : p'.pending = p.pending.eraseIdx k ++ [q'])
    (hheap : p'.server.heap.length = p.server.heap.length) (hdeeper : p'.depth q' = p.depth q + 1)
    (hkept : ∀ q' ∈ p.pending.eraseIdx k,
      p'.server.holder.traverses[q'.initRequestId]? = p.server.holder.traverses[q'.initRequestId]?) :
    p'.work < p.work := by
  have hlength := length_erase hq
  have hnodes : p'.nodesToBe = p.nodesToBe := by
    simp only [nodesToBe, hpending, List.length_append, List.length_singleton]
    omega
  have hle := others_le (Nat.le_of_eq hnodes) hkept
  have hleft : 0 < p.nodesToBe - p.depth q := by simp only [nodesToBe]; omega
  rw [work_split hq, work, hpending, List.map_append, List.sum_append, List.map_singleton, List.sum_singleton, hdeeper]
  omega

/-- **Every answer takes from the work left.** -/
theorem Valid.work_lt {p p' : Protocol} {ts : List (BinaryTree Addr)} {a : Act} (hi : Valid answer seen p ts)
    (hg : Answering p a) (h : Takes answer seen p a p') : p'.work < p.work := by
  cases a with
  | add _ _ _ => exact hg.elim
  | addContinue id k env =>
  obtain ⟨q, server, response, c, hq, hcont, -, rfl⟩ := h
  obtain ⟨t, u, ds, hw⟩ := hi.waiting q (List.mem_of_getElem? hq)
  have hdepth := hw.depth_lt hi
  cases hcont with
  | equal _ =>
    refine work_done hq hdepth rfl (Nat.le_succ _) fun q' _ => ?_
    simp only [receive, Response.showing, BTreeTraverseHolder.getTraverse_of_stored hw.stored]
  | @moved side t₀ t' heap node hd hstored hgo hnode =>
    obtain rfl : t₀ = t := Option.some.inj (Option.some.inj (hstored.symm.trans hw.stored))
    obtain ⟨rfl, -, next, -, -, rfl⟩ := BTreeTraverse.goTo_moved hgo
    refine work_moved hq hdepth rfl rfl ?_ fun q' hq' => BTreeTraverseHolder.update_of_ne (hi.others_ne hq hq')
    simp only [depth, receive, Response.showing, BTreeTraverseHolder.update_self, hw.stored, hw.length]
    omega
  | @ended side t₀ t' heap requestAdd row hd hstored hgo hr hrow =>
    obtain ⟨node, -, -, rfl, -⟩ := BTreeTraverse.goTo_ended hgo
    refine work_done hq hdepth rfl (by simp [receive, Response.showing]) fun q' hq' => ?_
    have hid : q'.initRequestId ≠ id := hg q' hq'
    simp only [receive, Response.showing]
    rw [BTreeTraverseHolder.removeTraverse_of_ne hid, BTreeTraverseHolder.update_of_ne (hi.others_ne hq hq')]

/-- Nobody is forgotten, and nobody answered twice. -/
theorem requests_perm {p p' : Protocol} {a : Act} (hg : Answering p a) (h : Takes answer seen p a p') :
    p'.requests.Perm p.requests := by
  cases a with
  | add _ _ _ => exact hg.elim
  | addContinue id k env =>
  obtain ⟨q, server, response, c, hq, -, -, rfl⟩ := h
  exact (receive_requests ..).trans (requests_erase hq)

theorem work_le (p : Protocol) : p.work ≤ p.pending.length * p.nodesToBe := by
  have hle : p.work ≤ (p.pending.map fun _ => p.nodesToBe).sum :=
    List.sum_le_sum fun q _ => Nat.sub_le ..
  simpa using hle

end Protocol

namespace Dangling

open Protocol (Answering Apart Valid honest)

variable {answer : RequestAdd → Ciphertext → Int32} {d d' : Dangling} {a : Act}

/-- What holds in every state of a run, whatever clients are shown. -/
def Live (answer : RequestAdd → Ciphertext → Int32) (d : Dangling) : Prop :=
  Gone d.state ∧ ∃ ts, Valid answer False d.protocol ts

theorem Live.init (answer : RequestAdd → Ciphertext → Int32) : Live answer init := ⟨.init, [], .init ..⟩

theorem Live.step (hl : Live answer d) (hg : Apart d.protocol a.1) (h : step answer d a = some d') :
    Protocol.Takes answer False d.protocol a.1 d'.protocol ∧ Live answer d' := by
  obtain ⟨hgone, ts, hi⟩ := hl
  obtain ⟨htakes, hgone'⟩ := takes_step hgone h
  have htakes : Protocol.Takes answer False d.protocol a.1 d'.protocol := htakes.mono False.elim
  obtain ⟨ts', hi', -⟩ := hi.step hg htakes
  exact ⟨htakes, hgone', ts', hi'⟩

theorem Live.answering {bs : List Act}
    (h : Runs (Guarded (ofPartial (Dangling.step answer)) fun d a => Answering d.protocol a.1) d bs d')
    (h₀ : Live answer d) : Live answer d' :=
  h.invariant (fun _ _ _ hl hs => (hl.step hs.1.apart hs.2).2) h₀

/-- The next one waiting may always answer, under its insert's own id. -/
theorem Live.can_answer (hl : Live answer d) (remains : Remains) (hne : d.protocol.pending ≠ []) :
    ∃ a d', Answering d.protocol a ∧ Dangling.step answer d (a, remains) = some d' := by
  obtain ⟨-, ts, hi⟩ := hl
  have hlt := List.length_pos_iff.mpr hne
  let id := d.protocol.pending[0].initRequestId
  obtain ⟨d', hd'⟩ := (progress hi remains).2 id 0 .calm hlt
  have happ : Apart d.protocol (.addContinue id 0 .calm) := fun q hq => hi.others_ne (List.getElem?_eq_getElem hlt) hq
  exact ⟨.addContinue id 0 .calm, d', happ, hd'⟩

/-- From every state of a run the inserts on their way can be brought to
their ends, whatever stands where the strings were. -/
theorem Live.finishes (remains : Remains) (hl : Live answer d) :
    ∃ (bs : List Protocol.Act) (d' : Dangling),
      Runs (Guarded (ofPartial (Dangling.step answer)) fun d a => Answering d.protocol a.1) d (bs.map (·, remains)) d' ∧
        d'.protocol.pending = [] := by
  induction hn : d.protocol.work using Nat.strong_induction_on generalizing d with
  | _ n ih =>
  by_cases hne : d.protocol.pending = []
  · exact ⟨[], d, .nil, hne⟩
  obtain ⟨a, d₁, ha, hstep⟩ := hl.can_answer remains hne
  obtain ⟨htakes, hl₁⟩ := hl.step ha.apart hstep
  obtain ⟨-, ts, hi⟩ := hl
  obtain ⟨bs, d', hbs, hd'⟩ := ih d₁.protocol.work (hn ▸ hi.work_lt ha htakes) hl₁ rfl
  exact ⟨a :: bs, d', .cons ⟨ha, hstep⟩ hbs, hd'⟩

/-- **Every insert comes to its end**: with no new one coming in, the clients
waiting answer at most `work` times between them, in whatever order and whatever they
are shown, and always can until each has been answered with `ResponseAddOk`, once. -/
theorem inserts_settle {as : List Act}
    (h : Runs (Guarded (ofPartial (step answer)) fun d a => Apart d.protocol a.1) init as d) :
    d.protocol.work ≤ d.protocol.pending.length * (d.protocol.server.heap.length + d.protocol.pending.length) ∧
    ∀ bs d', Runs (Guarded (ofPartial (step answer)) fun d a => Answering d.protocol a.1) d bs d' →
      bs.length + d'.protocol.work ≤ d.protocol.work ∧
      (d'.protocol.pending = [] →
        d'.protocol.answered.Perm (d.protocol.answered ++ d.protocol.pending.map (·.request))) ∧
      ∀ remains, ∃ (cs : List Protocol.Act) (d'' : Dangling),
        Runs (Guarded (ofPartial (step answer)) fun d a => Answering d.protocol a.1) d' (cs.map (·, remains)) d'' ∧
          d''.protocol.pending = [] := by
  have hlive : Live answer d := h.invariant (fun _ _ _ hl hs => (hl.step hs.1 hs.2).2) (Live.init answer)
  refine ⟨d.protocol.work_le, fun bs d' hbs => ⟨?_, fun hnil => ?_, fun remains => (hlive.answering hbs).finishes remains⟩⟩
  · refine hbs.measure (I := Live answer) (m := fun d => d.protocol.work)
      (fun _ _ _ hl hs => (hl.step hs.1.apart hs.2).2) (fun _ _ _ hl hs => ?_) hlive
    obtain ⟨htakes, -⟩ := hl.step hs.1.apart hs.2
    obtain ⟨-, ts, hi⟩ := hl
    exact hi.work_lt hs.1 htakes
  · have hperm : d'.protocol.requests.Perm d.protocol.requests :=
      hbs.monotone (I := Live answer) (R := fun d d' => d'.protocol.requests.Perm d.protocol.requests)
        (fun _ _ _ hl hs => (hl.step hs.1.apart hs.2).2) (fun _ => .refl _) (fun _ _ _ h₁ h₂ => h₂.trans h₁)
        (fun _ _ _ hl hs => Protocol.requests_perm hs.1 (hl.step hs.1.apart hs.2).1) hlive
    simpa [Protocol.requests, hnil] using hperm

/-- Two inserts waiting at the same root, shown what nothing has. -/
theorem inserts_settle_pair :
    ∃ d, Runs (Guarded (ofPartial (step (honest compare))) fun d a => Apart d.protocol a.1) init
        [(.add 1 (.ofValue [5]) .calm, fun _ _ => 0), (.add 2 (.ofValue [3]) .calm, fun _ _ => 0),
          (.add 3 (.ofValue [7]) .calm, fun _ _ => 0)] d ∧
      d.protocol.pending.length = 2 ∧ d.protocol.work ≤ 2 * (1 + 2) ∧
      ∃ (cs : List Protocol.Act) (d' : Dangling),
        Runs (Guarded (ofPartial (step (honest compare))) fun d a => Answering d.protocol a.1) d
          (cs.map (·, fun _ _ => 9)) d' ∧ d'.protocol.pending = [] :=
  have hrun : Runs (Guarded (ofPartial (step (honest compare))) fun d a => Apart d.protocol a.1) init
      [(.add 1 (.ofValue [5]) .calm, fun _ _ => 0), (.add 2 (.ofValue [3]) .calm, fun _ _ => 0),
        (.add 3 (.ofValue [7]) .calm, fun _ _ => 0)] _ :=
    .cons ⟨nofun, rfl⟩ (.cons ⟨nofun, rfl⟩ (.cons ⟨by
      intro q hq
      obtain rfl := List.mem_singleton.mp hq
      decide, rfl⟩ .nil))
  have hsettle := inserts_settle hrun
  ⟨_, hrun, rfl, hsettle.1, (hsettle.2 [] _ .nil).2.2 _⟩

end Dangling

end Zql
