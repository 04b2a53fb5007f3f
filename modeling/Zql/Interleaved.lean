/-
The order of the codes of stored rows, when inserts take turns: any number of
them at once, into any tables, rows without an order-preserving field among
them. As long as executors are shown what the nodes have, values fall along every
tree from left to right, so of two rows of a table the one with the smaller value
has the larger code, whichever of them was inserted first and whatever was inserted
between (`codes_reversed`).
-/
import Zql.Dangling
import Zql.Order

namespace Zql

open Transition

open Protocol (Orderly storedCode)

namespace Dangling

theorem compare_of_codes {v v' : Ciphertext} {c c' : UInt64} (hlt : c < c' → compare v v' = .gt)
    (hgt : c' < c → compare v' v = .gt) (heq : c = c' → v = v') : compare v v' = compare c' c := by
  cases hc : compare c' c with
  | lt => exact Std.OrientedCmp.lt_of_gt (hgt (Std.compare_eq_lt.mp hc))
  | eq => exact Std.compare_eq_iff_eq.mpr (heq (Std.compare_eq_iff_eq.mp hc).symm)
  | gt => exact hlt (Std.compare_eq_gt.mp hc)

/-- **Of two rows stored in a table the one with the smaller value has the
larger code**, in every state of every orderly run in which executors are shown
what the nodes have. -/
theorem codes_reversed {d : Dangling} {as : List Act}
    (h : Runs (Guarded (ofPartial (step Client.answer)) fun d a => Orderly Client.answer d.protocol a.1 ∧ d.Sees a)
      init as d) :
    ∀ e ∈ d.protocol.stored, ∀ e' ∈ d.protocol.stored, e.1.tree = e'.1.tree → ∀ v v', e.1.value? = some v →
      e'.1.value? = some v' →
      ∃ c c', storedCode e = some (formatPath c) ∧ storedCode e' = some (formatPath c') ∧
        compare v v' = compare c' c := by
  obtain ⟨-, hrun⟩ := @takes_runs Client.answer True d _ as (h.mono fun _ _ _ hs => ⟨⟨hs.1.1, fun _ => hs.1.2⟩, hs.2⟩)
  obtain ⟨ts, hi, hplain, hplaced⟩ := Orderly.runs hrun
  have hfalling := fun key => @Protocol.falling key d.protocol.answered fun r hr => hplain r (List.mem_append_left _ hr)
  intro e he e' he' htree v v' hv hv'
  obtain ⟨c, c', hc, hc', hlt, hgt, heq⟩ := hplaced.codes hi hfalling he he' htree hv hv'
  exact ⟨c, c', hc, hc', compare_of_codes hlt hgt heq⟩

/-- Two inserts at once, the later one finished first. -/
theorem codes_reversed_pair :
    let remains := Strings.standing [[0x35], [0x37], [0x33]]
    ∃ d, Runs (Guarded (ofPartial (step Client.answer)) fun d a => Orderly Client.answer d.protocol a.1 ∧ d.Sees a) init
        [(.add 1 (.ofValue [0x35]) .calm, remains), (.add 2 (.ofValue [0x33]) .calm, remains),
          (.add 3 (.ofValue [0x37]) .calm, remains), (.addContinue 4 1 .calm, remains),
          (.addContinue 5 0 .calm, remains)] d ∧
      d.protocol.stored.length = 3 ∧
      ∀ e ∈ d.protocol.stored, ∀ e' ∈ d.protocol.stored, e.1.tree = e'.1.tree → ∀ v v', e.1.value? = some v →
        e'.1.value? = some v' →
        ∃ c c', storedCode e = some (formatPath c) ∧ storedCode e' = some (formatPath c') ∧
          compare v v' = compare c' c := by
  intro remains
  have hstep : ∀ (id : UInt32) k (p : Protocol) q t, p.pending[k]? = some q →
      p.server.holder.traverses[q.initRequestId]? = some (some t) → t.pathLength < 63 →
      (∀ q' ∈ p.pending.eraseIdx k, q'.initRequestId ≠ id) → Orderly Client.answer p (.addContinue id k .calm) := by
    intro id k p q t hq ht hlt hap
    refine ⟨hap, fun q' t' hq' ht' _ => ?_⟩
    obtain rfl := Option.some.inj (hq.symm.trans hq')
    obtain rfl := Option.some.inj (Option.some.inj (ht.symm.trans ht'))
    exact hlt
  have hrun : Runs (Guarded (ofPartial (step Client.answer)) fun d a => Orderly Client.answer d.protocol a.1 ∧ d.Sees a)
      init
      [(.add 1 (.ofValue [0x35]) .calm, remains), (.add 2 (.ofValue [0x33]) .calm, remains),
        (.add 3 (.ofValue [0x37]) .calm, remains), (.addContinue 4 1 .calm, remains),
        (.addContinue 5 0 .calm, remains)] _ :=
    .cons ⟨⟨⟨nofun, .inr ⟨opeEnding, [0x35], by decide⟩⟩, nofun⟩, rfl⟩
      (.cons ⟨⟨⟨nofun, .inr ⟨opeEnding, [0x33], by decide⟩⟩, by decide⟩, rfl⟩
      (.cons ⟨⟨⟨fun q hq => by
          obtain rfl := List.mem_singleton.mp hq
          decide, .inr ⟨opeEnding, [0x37], by decide⟩⟩, by decide⟩, rfl⟩
        (.cons ⟨⟨hstep _ _ _ _ _ rfl rfl (by decide) (by decide), by decide⟩, rfl⟩
          (.cons ⟨⟨hstep _ _ _ _ _ rfl rfl (by decide) (by decide), by decide⟩, rfl⟩ .nil))))
  exact ⟨_, hrun, rfl, codes_reversed hrun⟩

end Dangling

end Zql
