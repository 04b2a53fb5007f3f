/-
Continuing an insert that is not in progress. The handler logs that its
traversal is null and goes on: it follows the pointer, or acknowledges the
insert. What has been completed may still be stored, since a traversal is
removed under the id of the message that ended it, and is then walked again.

No such message is ever rejected (`unknown_never_rejected`).
-/
import Zql.Lockstep

namespace Zql

open Dyadic (Side)
open Transition

/-- What has become of the last traversal started under an id. -/
inductive Stage
  | neverStarted
  | inProgress
  | completed
  deriving DecidableEq

abbrev Stages := UInt32 → Stage

namespace Stages

def init : Stages := fun _ => .neverStarted

def complete (c : Stages) (k : UInt32) : Stages :=
  if c k = .neverStarted then c else Function.update c k .completed

def observe (c : Stages) (e : Exchange) : Stages :=
  match e.message, e.response with
  | .add id _, .addTraverse _ => Function.update c id .inProgress
  | .addContinue _ request, .addOk => c.complete request.initRequestId
  | _, _ => c

/-- What is stored was started once, and the server is as its handlers
expect it. -/
structure Known (s : Server × Stages) : Prop where
  sound : s.1.Sound
  started : ∀ k t, s.1.holder.traverses[k]? = some (some t) → s.2 k ≠ .neverStarted

theorem Known.init : Known (Server.init, init) where
  sound := .init
  started := fun _ _ h => by simp [Server.init] at h

theorem complete_started {c : Stages} {j k : UInt32} (h : c k ≠ .neverStarted) : c.complete j k ≠ .neverStarted := by
  unfold complete
  split
  · exact h
  · by_cases hk : k = j
    · rw [hk, Function.update_self]
      nofun
    · rwa [Function.update_of_ne hk]

theorem Known.added {env : Env} {s s' : Server} {c : Stages} {id : UInt32} {request : RequestAdd} {response : Response}
    (hk : Known (s, c)) (h : Added env s id request s' response) :
    Known (s', observe c ⟨env, .add id request, s, response, s'⟩) := by
  refine ⟨hk.sound.added h, fun k t ht => ?_⟩
  cases h with
  | plain _ => exact hk.started k t ht
  | root _ _ => exact hk.started k t ht
  | started _ _ _ =>
    rcases BTreeTraverseHolder.update_cases ht with ⟨rfl, -⟩ | ⟨hne, ht⟩
    · simp [observe]
    · simpa [observe, Function.update_of_ne hne] using hk.started k t ht

theorem Known.continued {env : Env} {s s' : Server} {c : Stages} {id : UInt32} {request : RequestAddContinue}
    {response : Response} (hk : Known (s, c)) (h : Continued env s id request s' response) :
    Known (s', observe c ⟨env, .addContinue id request, s, response, s'⟩) := by
  refine ⟨hk.sound.continued h, fun k t ht => ?_⟩
  have hstored : ∀ u, s.holder.traverses[k]? = some (some u) → c k ≠ .neverStarted := hk.started k
  cases h with
  | equal _ => exact complete_started (hstored t ((BTreeTraverseHolder.getTraverse_stored ..).mp ht))
  | moved _ hu _ _ =>
    rcases BTreeTraverseHolder.update_cases ht with ⟨rfl, -⟩ | ⟨-, ht⟩
    · exact hstored _ hu
    · exact hstored t ht
  | ended _ hu _ _ _ =>
    obtain ⟨-, ht⟩ := BTreeTraverseHolder.removeTraverse_cases ht
    rcases BTreeTraverseHolder.update_cases ht with ⟨rfl, -⟩ | ⟨-, ht⟩
    · exact complete_started (hstored _ hu)
    · exact complete_started (hstored t ht)

theorem Known.reached {s : Server × Stages} {as : List (Message × Env)}
    (h : Runs (ofPartial (served observe)) (Server.init, Stages.init) as s) : Known s := by
  have hkeeps : ∀ s a s', Known s → Guarded (ofPartial (served observe)) (fun _ _ => True) s a s' → Known s' :=
    served_keeps _ (fun _ _ _ _ _ _ _ hk _ hh => hk.added hh) fun _ _ _ _ _ _ _ hk _ hh => hk.continued hh
  exact h.invariant (fun s a s' hk hs => hkeeps s a s' hk ⟨trivial, hs⟩) Known.init

end Stages

/-! ## Rejecting -/

/-- The message is answered, not with `ResponseAddOk`, and the forest, the
traversals and the tables are as they were. -/
def Rejected (env : Env) (s : Server) (id : UInt32) (request : RequestAddContinue) : Prop :=
  ∃ s' sent, onRequestAddContinue env s id request = .ok (s', sent) ∧ s'.heap = s.heap ∧ s'.forest = s.forest ∧
    s'.holder = s.holder ∧ s'.database = s.database ∧ sent.wrapper.response ≠ .addOk

theorem moved_ne {env : Env} {s : Server} {side : Side} {k : UInt32} {t t' : BTreeTraverse} {heap : Heap}
    (ht : s.holder.traverses[k]? = some (some t)) (hgo : t.goTo side env.undef s.heap = some (heap, t', true)) :
    s.holder.update k t' ≠ s.holder := by
  intro hsame
  obtain ⟨-, node, next, -, -, rfl⟩ := BTreeTraverse.goTo_moved hgo
  have hstored := s.holder.update_self k
    { t with path := pathStep side t.path, pathLength := t.pathLength + 1, current := next }
  rw [hsame, ht] at hstored
  have hlength := congrArg BTreeTraverse.pathLength (Option.some.inj (Option.some.inj hstored))
  have hlength : t.pathLength = t.pathLength + 1 := hlength
  omega

/-- What is not followed to a null traversal acknowledges the insert, or
moves a traversal that is stored. -/
theorem continued_effect {env : Env} {s s' : Server} {id : UInt32} {request : RequestAddContinue} {response : Response}
    (h : Continued env s id request s' response) :
    response = .addOk ∨ (∃ t, s.holder.traverses[request.initRequestId]? = some (some t)) ∧ s'.holder ≠ s.holder := by
  cases h with
  | equal _ => exact .inl rfl
  | moved _ ht hgo _ => exact .inr ⟨⟨_, ht⟩, moved_ne ht hgo⟩
  | ended _ _ _ _ _ => exact .inl rfl

theorem onRequestAddContinue_null (env : Env) {s : Server} (id : UInt32) {request : RequestAddContinue}
    (hd : direction request.compareResult ≠ none)
    (hnone : ∀ t, s.holder.traverses[request.initRequestId]? ≠ some (some t)) :
    onRequestAddContinue env s id request = .error .nullTraverse := by
  obtain ⟨side, hside⟩ := Option.ne_none_iff_exists'.mp hd
  have hnull : (s.holder.getTraverse request.initRequestId).2 = none := by
    by_contra hne
    obtain ⟨t, ht⟩ := Option.ne_none_iff_exists'.mp hne
    exact hnone t (BTreeTraverseHolder.getTraverse_some ht).1
  simp only [onRequestAddContinue, hside, hnull]

/-- **A message that continues an insert that is not in progress is never
rejected**: a null traversal is followed, or the insert is acknowledged, or
it was completed before and the traversals are not as they were. -/
theorem unknown_never_rejected {s : Server × Stages} {as : List (Message × Env)}
    (h : Runs (ofPartial (served Stages.observe)) (Server.init, Stages.init) as s) (env : Env) (id : UInt32)
    {request : RequestAddContinue} (hunknown : s.2 request.initRequestId ≠ .inProgress) :
    ¬ Rejected env s.1 id request ∧
      (onRequestAddContinue env s.1 id request = .error .nullTraverse ∨
        ∃ s' sent, onRequestAddContinue env s.1 id request = .ok (s', sent) ∧
          (sent.wrapper.response = .addOk ∨
            s.2 request.initRequestId = .completed ∧ s'.holder ≠ s.1.holder)) := by
  have hknown := Stages.Known.reached h
  constructor
  · rintro ⟨s', sent, hok, -, -, hholder, -, hresponse⟩
    rcases continued_effect (onRequestAddContinue_continued hok) with hadded | ⟨-, hmoved⟩
    · exact hresponse hadded
    · exact hmoved hholder
  · by_cases hanswered : ∃ done, onRequestAddContinue env s.1 id request = .ok done
    · obtain ⟨⟨s', sent⟩, hok⟩ := hanswered
      refine .inr ⟨s', sent, hok, ?_⟩
      rcases continued_effect (onRequestAddContinue_continued hok) with hadded | ⟨⟨t, ht⟩, hmoved⟩
      · exact .inl hadded
      · refine .inr ⟨?_, hmoved⟩
        have hstarted := hknown.started _ t ht
        cases hstage : s.2 request.initRequestId with
        | neverStarted => exact absurd hstage hstarted
        | inProgress => exact absurd hstage hunknown
        | completed => rfl
    · left
      rw [Worker.answer_addContinue_iff hknown.sound] at hanswered
      rw [Classical.not_imp, not_exists] at hanswered
      exact onRequestAddContinue_null env id hanswered.1 hanswered.2

/-- Nothing has been started. -/
theorem unknown_never_rejected_empty :
    ¬ Rejected .calm Server.init 1 ⟨7, -1⟩ ∧
      (onRequestAddContinue .calm Server.init 1 ⟨7, -1⟩ = .error .nullTraverse ∨
        ∃ s' sent, onRequestAddContinue .calm Server.init 1 ⟨7, -1⟩ = .ok (s', sent) ∧
          (sent.wrapper.response = .addOk ∨ Stages.init 7 = .completed ∧ s'.holder ≠ Server.init.holder)) :=
  have hrun : Runs (ofPartial (served Stages.observe)) (Server.init, Stages.init) [] (Server.init, Stages.init) := .nil
  unknown_never_rejected hrun .calm 1 (by decide)

/-- The null pointer is followed by a step, and not by an equal value, which
is acknowledged. -/
theorem unknown_not_rejected :
    onRequestAddContinue .calm Server.init 1 ⟨7, -1⟩ = .error .nullTraverse ∧
      (∃ s' sent, onRequestAddContinue .calm Server.init 1 ⟨7, 0⟩ = .ok (s', sent) ∧
        sent.wrapper.response = .addOk) ∧
      ¬ Rejected .calm Server.init 1 ⟨7, -1⟩ ∧ ¬ Rejected .calm Server.init 1 ⟨7, 0⟩ := by
  refine ⟨rfl, ⟨_, _, rfl, rfl⟩, ?_, ?_⟩
  · rintro ⟨s', sent, hok, -⟩
    cases hok
  · rintro ⟨s', sent, hok, -, -, -, -, hresponse⟩
    cases hok
    exact hresponse rfl

end Zql
