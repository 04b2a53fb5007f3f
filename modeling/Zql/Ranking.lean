/-
The codes of stored rows, over the network. Whatever the order of the messages,
the rows that MySQL takes are those of inserts the client has made, each at most
as often as it was sent; and while workers find the nodes' bytes where they were,
among two of one table the one with the smaller value has the larger code
(`network_codes`). So what `Dangling.codes_reversed` says of inserts that take turns
holds of byte strings on their way between `test` and the workers.
-/
import Zql.Completion
import Zql.Interleaved

namespace Zql

open Dyadic SearchTree Transition

theorem writtenSince_trans {s s' : Server} (h : s.database.adds <+: s'.database.adds) :
    writtenSince .init s' = writtenSince .init s ++ writtenSince s s' := by
  obtain ⟨added, hadded⟩ := h
  simp only [writtenSince, Server.init, ← hadded, List.length_nil, List.drop_zero, List.drop_left, List.filter_append,
    List.map_append]

theorem Added.adds {env : Env} {s s' : Server} {id : UInt32} {request : RequestAdd} {response : Response}
    (h : Added env s id request s' response) : s.database.adds <+: s'.database.adds := by
  cases h with
  | plain _ => exact ⟨_, (Database.add_adds ..).symm⟩
  | root _ _ => exact ⟨_, (Database.add_adds ..).symm⟩
  | started _ _ _ => exact List.prefix_rfl

theorem Continued.adds {env : Env} {s s' : Server} {id : UInt32} {request : RequestAddContinue} {response : Response}
    (h : Continued env s id request s' response) : s.database.adds <+: s'.database.adds := by
  cases h with
  | equal _ => exact List.prefix_rfl
  | moved _ _ _ _ => exact List.prefix_rfl
  | ended _ _ _ _ _ => exact ⟨_, (Database.add_adds ..).symm⟩

namespace Protocol

variable {answer : RequestAdd → Ciphertext → Int32} {seen : Prop} {p p' : Protocol} {a : Act}

/-- The rows MySQL took are noted with their inserts, in the order of the
answers. -/
structure Noted (p : Protocol) : Prop where
  rows : p.stored.map (·.2) = writtenSince .init p.server
  inserts : (p.stored.map (·.1)).Sublist p.answered

theorem Noted.init : Noted .init := ⟨rfl, .refl _⟩

theorem Noted.receive {id : UInt32} {request : RequestAdd} {server : Server} {response : Response} (hn : Noted p)
    (hadds : p.server.database.adds <+: server.database.adds) (hw : Writes p.server server response) (c : Ciphertext) :
    Noted (p.receive id request server (response.showing c)) where
  rows := by
    rw [receive_stored, receive_server, writtenSince_trans hadds, List.map_append, hn.rows, List.map_map]
    simp [Function.comp_def]
  inserts := receive_sublist hn.inserts hw c

theorem Noted.step (hn : Noted p) (h : Takes answer seen p a p') : Noted p' := by
  cases a with
  | add id request env =>
    obtain ⟨server, response, c, hadded, -, rfl⟩ := h
    exact hn.receive hadded.adds hadded.writes c
  | addContinue id k env =>
    obtain ⟨q, server, response, c, -, hcont, -, rfl⟩ := h
    have hn₀ : Noted { p with pending := p.pending.eraseIdx k } := ⟨hn.rows, hn.inserts⟩
    exact hn₀.receive hcont.adds hcont.writes c

end Protocol

namespace Network

open Protocol (Fresh Plain Orderly)

variable {rand : Nat → UInt32} {n n' : Network} {p p' : Protocol} {a : Act}

theorem Follows.begun_subset {seen : Prop} (hf : Follows seen n p) (h : Guarded (Steps rand) (Clean rand) n a n') :
    begun n.main.sent ⊆ begun n'.main.sent := by
  obtain ⟨hclean, hstep⟩ := h
  cases a with
  | client a =>
    cases hstep with
    | client hreceive hmain =>
      obtain ⟨ws, hws, -⟩ := act_sends hreceive hmain
      rw [hws, begun_append]
      exact List.subset_append_left ..
  | serve k env remains =>
    rw [(serve_takes hstep).2.1]
    exact List.Subset.refl _
  | receive k =>
    rw [(hf.receive hclean hstep).2.1]
    exact List.Subset.refl _

theorem Follows.length_lt (hf : Follows True n p) {b : Protocol.Act} (hfresh : Fresh p b)
    (h : Protocol.Takes Client.answer True p b p') {id : UInt32} {k : Nat} {env : Env} (hb : b = .addContinue id k env)
    {q : Pending} {t : BTreeTraverse} (hq : p.pending[k]? = some q)
    (ht : p.server.holder.traverses[q.initRequestId]? = some (some t))
    (hgo : direction (Client.answer q.request q.ciphertext) ≠ none) :
    ∃ t', p'.server.holder.traverses[q.initRequestId]? = some (some t') ∧ t'.pathLength = t.pathLength + 1 := by
  subst hb
  obtain ⟨q', server, response, c, hq', hcont, -, rfl⟩ := h
  obtain rfl := Option.some.inj (hq.symm.trans hq')
  have hne : q.initRequestId ≠ id := fun he => hfresh (he ▸ hf.agrees.used q (List.mem_of_getElem? hq))
  rw [Protocol.receive_server]
  cases hcont with
  | equal hnone => exact absurd hnone hgo
  | moved hside hstored hmove hnode =>
    obtain rfl := Option.some.inj (Option.some.inj (hstored.symm.trans ht))
    obtain ⟨rfl, -, next, -, -, rfl⟩ := BTreeTraverse.goTo_moved hmove
    exact ⟨_, BTreeTraverseHolder.update_self .., rfl⟩
  | ended hside hstored hend hreq hrow =>
    obtain rfl := Option.some.inj (Option.some.inj (hstored.symm.trans ht))
    obtain ⟨node, -, -, rfl, rfl⟩ := BTreeTraverse.goTo_ended hend
    exact ⟨_, (BTreeTraverseHolder.removeTraverse_of_ne hne).trans (BTreeTraverseHolder.update_self ..), rfl⟩

/-- A step of the protocol is an orderly one while trees are shallow and rows
plain. -/
theorem Follows.orderly {b : Protocol.Act} (hf : Follows True n p) (hserver : p'.server = n'.server) (hshallow : n'.server.Shallow)
    (hplain : ∀ r ∈ p'.requests, Plain r) (hfresh : Fresh p b) (h : Protocol.Takes Client.answer True p b p') :
    Orderly Client.answer p b := by
  refine ⟨hfresh.apart hf.agrees.used, ?_⟩
  cases b with
  | add id request env =>
    obtain ⟨server, response, c, -, -, rfl⟩ := h
    exact hplain request ((p.receive_requests ..).mem_iff.mpr (List.mem_append_right _ List.mem_cons_self))
  | addContinue id k env =>
    intro q t hq ht hgo
    obtain ⟨t', ht', hlength⟩ := hf.length_lt hfresh h rfl hq ht hgo
    rw [hserver] at ht'
    have hle := hshallow _ (Std.ExtTreeMap.mem_toList_iff_getElem?_eq_some.mpr ht') t' rfl
    omega

/-- The protocol's run, which is orderly if the client's rows are plain. -/
def Ranked (n : Network) : Prop :=
  ∃ p, Follows True n p ∧ p.Noted ∧ ((∀ r ∈ begun n.main.sent, Plain r) →
    ∃ bs, Runs (Guarded (ofPartial (Dangling.step Client.answer)) fun d a => Orderly Client.answer d.protocol a.1 ∧ d.Sees a)
      .init bs ⟨p, n.strings⟩)

theorem Ranked.step (hn : Ranked n)
    (h : Guarded (ShallowSteps rand) (fun n a => Clean rand n a ∧ n.Sees a) n a n') : Ranked n' := by
  obtain ⟨p, hf, hnoted, hrun⟩ := hn
  obtain ⟨⟨hclean, hsees⟩, hstep, hshallow⟩ := h
  have hsubset := hf.begun_subset ⟨hclean, hstep⟩
  have hstay : Follows True n' p → n'.strings = n.strings → Ranked n' := fun hf' hstrings =>
    ⟨p, hf', hnoted, fun hp => hstrings ▸ hrun fun r hr => hp r (hsubset hr)⟩
  cases a with
  | client a =>
    cases hstep with
    | client hreceive hmain => exact hstay (hf.act hclean hreceive hmain) rfl
  | serve k env remains =>
    obtain ⟨p', hf', ⟨-, rfl, hstrings, -⟩ | ⟨⟨b, hb⟩, -⟩⟩ := hf.serve (fun _ => hsees) hstep
    · exact hstay hf' hstrings
    · obtain ⟨hfresh, htakes⟩ := hf.takes hb
      refine ⟨p', hf', hnoted.step htakes, fun hplain => ?_⟩
      obtain ⟨bs, hbs⟩ := hrun fun r hr => hplain r (hsubset hr)
      have hplain' : ∀ r ∈ p'.requests, Plain r := fun r hr => hplain r (hf'.requests_subperm.subset hr)
      exact ⟨bs ++ [b], hbs.snoc ⟨⟨hf.orderly hf'.agrees.server hshallow hplain' hfresh htakes, hb.1.2 trivial⟩, hb.2⟩⟩
  | receive k =>
    have hstrings : n'.strings = n.strings := by
      cases hstep
      rfl
    exact hstay (hf.receive hclean hstep).1 hstrings

/-- **The codes are in order, however the messages arrive**, while workers find
the nodes' bytes where they were: of two rows of a table that MySQL took the one of
the insert with the smaller value has the larger code. -/
theorem network_codes {as : List Act}
    (h : Runs (Guarded (ShallowSteps rand) fun n a => Clean rand n a ∧ n.Sees a) init as n)
    (hplain : ∀ r ∈ begun n.main.sent, Plain r) :
    ∃ stored : List (RequestAdd × Row), stored.map (·.2) = writtenSince .init n.server ∧
      (stored.map (·.1)).Subperm (begun n.main.sent) ∧
      ∀ e ∈ stored, ∀ e' ∈ stored, e.1.tree = e'.1.tree → ∀ v v', e.1.value? = some v → e'.1.value? = some v' →
        ∃ c c', Protocol.storedCode e = some (formatPath c) ∧ Protocol.storedCode e' = some (formatPath c') ∧
          compare v v' = compare c' c := by
  have hstart : Ranked init := ⟨.init, Follows.init, .init, fun _ => ⟨[], .nil⟩⟩
  obtain ⟨p, hf, hnoted, hrun⟩ := h.invariant (I := Ranked) (fun _ _ _ hn hs => hn.step hs) hstart
  obtain ⟨bs, hbs⟩ := hrun hplain
  refine ⟨p.stored, ?_, ?_, Dangling.codes_reversed hbs⟩
  · rw [hnoted.rows, hf.agrees.server]
  · have hanswered : p.answered.Sublist p.requests := List.sublist_append_left ..
    exact (hnoted.inserts.trans hanswered).subperm.trans hf.requests_subperm

/-- Two inserts into one table, the second over a traversal. -/
theorem network_codes_pair :
    ∃ n, Runs (Guarded (ShallowSteps UInt32.ofNat) fun n a => Clean UInt32.ofNat n a ∧ n.Sees a) init
        (pairActs ++ [.serve 0 (fun _ => .calm) pairRemains]) n ∧
      (writtenSince .init n.server).length = 2 ∧
      ∃ stored : List (RequestAdd × Row), stored.map (·.2) = writtenSince .init n.server ∧
        (stored.map (·.1)).Subperm (begun n.main.sent) ∧
        ∀ e ∈ stored, ∀ e' ∈ stored, e.1.tree = e'.1.tree → ∀ v v', e.1.value? = some v → e'.1.value? = some v' →
          ∃ c c', Protocol.storedCode e = some (formatPath c) ∧ Protocol.storedCode e' = some (formatPath c') ∧
            compare v v' = compare c' c := by
  obtain ⟨n, n', -, hrun, hserve, -, -, -, hbegun, hboth, -⟩ := pair_runs
  have hmain : n'.main = n.main := (serve_takes hserve.2.1).2.1
  refine ⟨n', hrun.append (.one hserve), hboth, network_codes (hrun.append (.one hserve)) fun r hr => .inr ?_⟩
  rw [hmain, hbegun, List.mem_pair] at hr
  rcases hr with rfl | rfl
  · exact ⟨opeEnding, [0x35], by decide⟩
  · exact ⟨opeEnding, [0x33], by decide⟩

end Network

end Zql
