/-
Reading a list in which items that do not fit are passed over, and machines
that do so as the items come in.

A `Scan` takes what it is after from a list and hands on what is left:
`next` takes the first item that fits, and scans are put together as monads
are. A scan over and over reads a whole list (`readAll`).

A machine that is fed items one at a time answers some of them. What it
answers is told by the scan it carries out: a state that waits for an item
(`Waits`) carries out `next`, and the rules for `Scans` follow the way the
scan is put together.
-/
import Mathlib.Logic.Basic

namespace Scanning

/-- What is taken from the head of a list, and what is left of it. -/
structure Scan (ε α : Type) where
  run : List ε → Option (α × List ε)

variable {ε α β σ κ μ : Type}

instance : Monad (Scan ε) where
  pure a := ⟨fun es => some (a, es)⟩
  bind p f := ⟨fun es =>
    match p.run es with
    | none => none
    | some (a, rest) => (f a).run rest⟩

theorem run_pure (a : α) (es : List ε) : (pure a : Scan ε α).run es = some (a, es) := rfl

theorem run_bind (p : Scan ε α) (f : α → Scan ε β) (es : List ε) :
    (p >>= f).run es =
      match p.run es with
      | none => none
      | some (a, rest) => (f a).run rest :=
  rfl

def seek (fits : ε → Option α) : List ε → Option (α × List ε)
  | [] => none
  | e :: es =>
    match fits e with
    | some a => some (a, es)
    | none => seek fits es

/-- The first item that fits. -/
def next (fits : ε → Option α) : Scan ε α := ⟨seek fits⟩

/-! ## What a scan leaves -/

/-- The scan leaves no more than it was given. -/
def Shrinks (p : Scan ε α) : Prop := ∀ es a rest, p.run es = some (a, rest) → rest.length ≤ es.length

/-- The scan takes something. -/
def Shortens (p : Scan ε α) : Prop := ∀ es a rest, p.run es = some (a, rest) → rest.length < es.length

theorem shortens_next (fits : ε → Option α) : Shortens (next fits) := by
  intro es
  induction es with
  | nil => nofun
  | cons e es ih =>
    intro a rest h
    simp only [next, seek] at h
    split at h
    · cases h
      exact Nat.lt_succ_self _
    · exact Nat.lt_trans (ih a rest h) (Nat.lt_succ_self _)

theorem Shortens.bind {p : Scan ε α} {f : α → Scan ε β} (hp : Shortens p) (hf : ∀ a, Shrinks (f a)) :
    Shortens (p >>= f) := by
  intro es b rest h
  rw [run_bind] at h
  split at h
  · cases h
  · next a mid ha => exact Nat.lt_of_le_of_lt (hf a mid b rest h) (hp es a mid ha)

/-! ## What a scan takes -/

/-- What the scan takes stands at the front of the list, and it takes that
whatever comes after. -/
def Cuts (p : Scan ε α) : Prop :=
  ∀ es a rest, p.run es = some (a, rest) →
    ∃ front, es = front ++ rest ∧ ∀ after, p.run (front ++ after) = some (a, after)

theorem cuts_next (fits : ε → Option α) : Cuts (next fits) := by
  intro es
  induction es with
  | nil => nofun
  | cons e es ih =>
    intro a rest h
    simp only [next, seek] at h
    split at h
    · next hf =>
      cases h
      exact ⟨[e], rfl, fun after => by simp [next, seek, hf]⟩
    · next hf =>
      obtain ⟨front, rfl, hfront⟩ := ih a rest h
      exact ⟨e :: front, rfl, fun after => by simpa [next, seek, hf] using hfront after⟩

theorem cuts_pure (a : α) : Cuts (pure a : Scan ε α) := by
  intro es b rest h
  cases h
  exact ⟨[], rfl, fun after => rfl⟩

theorem Cuts.bind {p : Scan ε α} {f : α → Scan ε β} (hp : Cuts p) (hf : ∀ a, Cuts (f a)) : Cuts (p >>= f) := by
  intro es b rest h
  rw [run_bind] at h
  split at h
  · cases h
  · next a mid ha =>
    obtain ⟨front, rfl, hfront⟩ := hp es a mid ha
    obtain ⟨front', rfl, hfront'⟩ := hf a mid b rest h
    refine ⟨front ++ front', by simp, fun after => ?_⟩
    rw [run_bind, List.append_assoc, hfront]
    exact hfront' after

theorem Cuts.shrinks {p : Scan ε α} (h : Cuts p) : Shrinks p := by
  intro es a rest he
  obtain ⟨front, rfl, -⟩ := h es a rest he
  simp

theorem Cuts.append {p : Scan ε α} (h : Cuts p) {es rest : List ε} {a : α} (he : p.run es = some (a, rest))
    (after : List ε) : p.run (es ++ after) = some (a, rest ++ after) := by
  obtain ⟨front, rfl, hfront⟩ := h es a rest he
  rw [List.append_assoc, hfront]

/-- What is found with one more item, and not without it, takes that item. -/
theorem Cuts.last {p : Scan ε α} (h : Cuts p) {es rest : List ε} {e : ε} {a : α} (hnone : p.run es = none)
    (he : p.run (es ++ [e]) = some (a, rest)) : rest = [] := by
  obtain ⟨front, heq, hfront⟩ := h _ a rest he
  rcases List.eq_nil_or_concat rest with hrest | ⟨rest', e', rfl⟩
  · exact hrest
  · rw [List.concat_eq_append, ← List.append_assoc] at heq
    obtain ⟨rfl, -⟩ := List.append_inj' heq rfl
    rw [hfront] at hnone
    cases hnone

/-- From items that all have a property the scan takes what has another, and
it leaves items that have theirs. -/
def Draws (ok : ε → Prop) (p : Scan ε α) (post : α → Prop) : Prop :=
  ∀ es, (∀ e ∈ es, ok e) → ∀ a rest, p.run es = some (a, rest) → post a ∧ ∀ e ∈ rest, ok e

theorem Draws.mono {ok : ε → Prop} {p : Scan ε α} {post post' : α → Prop} (h : Draws ok p post)
    (hle : ∀ a, post a → post' a) : Draws ok p post' := by
  intro es hes a rest hp
  obtain ⟨hpost, hrest⟩ := h es hes a rest hp
  exact ⟨hle a hpost, hrest⟩

theorem draws_next (ok : ε → Prop) (fits : ε → Option α) : Draws ok (next fits) fun a => ∃ e, ok e ∧ fits e = some a := by
  intro es
  induction es with
  | nil => nofun
  | cons e es ih =>
    intro hes a rest h
    simp only [next, seek] at h
    split at h
    · next hf =>
      cases h
      exact ⟨⟨e, hes e List.mem_cons_self, hf⟩, fun e' he => hes e' (List.mem_cons_of_mem _ he)⟩
    · exact ih (fun e' he => hes e' (List.mem_cons_of_mem _ he)) a rest h

theorem draws_pure {ok : ε → Prop} {post : α → Prop} {a : α} (h : post a) : Draws ok (pure a) post := by
  intro es hes b rest he
  cases he
  exact ⟨h, hes⟩

theorem Draws.bind {ok : ε → Prop} {p : Scan ε α} {f : α → Scan ε β} {mid : α → Prop} {post : β → Prop}
    (hp : Draws ok p mid) (hf : ∀ a, mid a → Draws ok (f a) post) : Draws ok (p >>= f) post := by
  intro es hes b rest h
  rw [run_bind] at h
  split at h
  · cases h
  · next a left ha =>
    obtain ⟨hmid, hleft⟩ := hp es hes a left ha
    exact hf a hmid left hleft b rest h

/-- The scan over and over, until it finds nothing. -/
def readAll (p : Scan ε α) (hp : Shortens p) (es : List ε) : List α :=
  match h : p.run es with
  | none => []
  | some (a, rest) =>
    have := hp es a rest h
    a :: readAll p hp rest
termination_by es.length

theorem readAll_none {p : Scan ε α} {hp : Shortens p} {es : List ε} (h : p.run es = none) : readAll p hp es = [] := by
  rw [readAll]
  split
  · rfl
  · next h' =>
    rw [h] at h'
    cases h'

theorem readAll_some {p : Scan ε α} {hp : Shortens p} {es rest : List ε} {a : α} (h : p.run es = some (a, rest)) :
    readAll p hp es = a :: readAll p hp rest := by
  rw [readAll]
  split
  · next h' =>
    rw [h] at h'
    cases h'
  · next h' =>
    rw [h] at h'
    cases h'
    rfl

/-! ## Machines -/

/-- A machine fed with items: its state at the end, and its calls. A machine
may fail. -/
def feed (on : σ → ε → Option (σ × Option κ)) : σ → List ε → Option (σ × List κ)
  | s, [] => some (s, [])
  | s, e :: es =>
    match on s e with
    | none => none
    | some (s', call) => (feed on s' es).map fun (s'', calls) => (s'', call.toList ++ calls)

variable {on : σ → ε → Option (σ × Option κ)} {keep : κ → Option μ}

theorem feed_cons {s s' s'' : σ} {e : ε} {es : List ε} {call : Option κ} {calls : List κ} (h : on s e = some (s', call))
    (h' : feed on s' es = some (s'', calls)) : feed on s (e :: es) = some (s'', call.toList ++ calls) := by
  simp only [feed, h, h', Option.map_some]

theorem feed_append {s s' s'' : σ} {es fs : List ε} {calls calls' : List κ} (h : feed on s es = some (s', calls))
    (h' : feed on s' fs = some (s'', calls')) : feed on s (es ++ fs) = some (s'', calls ++ calls') := by
  induction es generalizing s calls with
  | nil =>
    cases h
    exact h'
  | cons e es ih =>
    simp only [feed] at h
    split at h
    · cases h
    next s₁ call hon =>
    obtain ⟨⟨s₂, rest⟩, hrest, heq⟩ := Option.map_eq_some_iff.mp h
    cases heq
    rw [List.append_assoc]
    exact feed_cons hon (ih hrest)

theorem feed_split {s s'' : σ} {es fs : List ε} {calls : List κ} (h : feed on s (es ++ fs) = some (s'', calls)) :
    ∃ s' first rest, feed on s es = some (s', first) ∧ feed on s' fs = some (s'', rest) ∧ calls = first ++ rest := by
  induction es generalizing s calls with
  | nil => exact ⟨s, [], calls, rfl, h, rfl⟩
  | cons e es ih =>
    simp only [List.cons_append, feed] at h
    split at h
    · cases h
    next s₁ call hon =>
    obtain ⟨⟨s₂, later⟩, hlater, heq⟩ := Option.map_eq_some_iff.mp h
    cases heq
    obtain ⟨s', first, rest, hfirst, hrest, rfl⟩ := ih hlater
    exact ⟨s', call.toList ++ first, rest, feed_cons hon hfirst, hrest, (List.append_assoc ..).symm⟩

/-- The calls of a machine that are answers. -/
def answers (on : σ → ε → Option (σ × Option κ)) (keep : κ → Option μ) (s : σ) (es : List ε) : Option (List μ) :=
  (feed on s es).map fun (_, calls) => calls.filterMap keep

@[simp] theorem answers_nil (s : σ) : answers on keep s [] = some [] := rfl

/-- A state that stays as it is until an item fits, and then goes on to `go`
with the answer `out`, or without a call. -/
structure Waits (on : σ → ε → Option (σ × Option κ)) (keep : κ → Option μ) (s : σ) (fits : ε → Option α) (go : α → σ)
    (out : α → Option μ) : Prop where
  skips : ∀ e, fits e = none → ∃ call, on s e = some (s, call) ∧ call.bind keep = none
  takes : ∀ e a, fits e = some a →
    ∃ call, on s e = some (go a, call) ∧ call.bind keep = out a ∧ (out a = none → call = none)

theorem Waits.quiet {s : σ} {fits : ε → Option α} {go : α → σ} {out : α → Option μ} (h : Waits on keep s fits go out)
    {e : ε} {a : α} (hf : fits e = some a) (ho : out a = none) : on s e = some (go a, none) := by
  obtain ⟨call, hon, -, hquiet⟩ := h.takes e a hf
  rw [hon, hquiet ho]

theorem Waits.answers {s : σ} {fits : ε → Option α} {go : α → σ} {out : α → Option μ} (h : Waits on keep s fits go out)
    {e : ε} {a : α} {m : μ} (hf : fits e = some a) (ho : out a = some m) :
    ∃ call, on s e = some (go a, some call) ∧ keep call = some m := by
  obtain ⟨call, hon, hkeep, -⟩ := h.takes e a hf
  obtain ⟨c, rfl, hc⟩ := Option.bind_eq_some_iff.mp (hkeep.trans ho)
  exact ⟨c, hon, hc⟩

theorem answers_cons {s s' : σ} {e : ε} {call : Option κ} (h : on s e = some (s', call)) (es : List ε) :
    answers on keep s (e :: es) = (answers on keep s' es).map ((call.bind keep).toList ++ ·) := by
  simp only [answers, feed, h, Option.map_map]
  congr 1
  funext ⟨s'', calls⟩
  cases call with
  | none => rfl
  | some c => cases hk : keep c <;> simp [hk]

/-- What a machine answers in a state: nothing when the scan finds nothing,
and else some answers and what it answers to the rest. -/
def Scans (on : σ → ε → Option (σ × Option κ)) (keep : κ → Option μ) (s : σ) (p : Scan ε α)
    (post : α → σ → List μ → Prop) : Prop :=
  ∀ es,
    match p.run es with
    | none => answers on keep s es = some []
    | some (a, rest) => ∃ s' ms, post a s' ms ∧ answers on keep s es = (answers on keep s' rest).map (ms ++ ·)

/-- **A state that waits for an item carries out `next`.** -/
theorem Waits.scans {s : σ} {fits : ε → Option α} {go : α → σ} {out : α → Option μ} (h : Waits on keep s fits go out) :
    Scans on keep s (next fits) fun a s' ms => s' = go a ∧ ms = (out a).toList := by
  intro es
  induction es with
  | nil => rfl
  | cons e es ih =>
    cases hf : fits e with
    | some a =>
      obtain ⟨call, hon, hcall, -⟩ := h.takes e a hf
      simp only [next, seek, hf]
      exact ⟨_, _, ⟨rfl, rfl⟩, by rw [answers_cons hon, hcall]⟩
    | none =>
      obtain ⟨call, hon, hcall⟩ := h.skips e hf
      simp only [next, seek, hf]
      rw [answers_cons hon, hcall]
      simpa [next] using ih

theorem Scans.mono {s : σ} {p : Scan ε α} {post post' : α → σ → List μ → Prop} (h : Scans on keep s p post)
    (hle : ∀ a s' ms, post a s' ms → post' a s' ms) : Scans on keep s p post' := by
  intro es
  have := h es
  split
  · next hp => rwa [hp] at this
  · next a rest hp =>
    rw [hp] at this
    obtain ⟨s', ms, hpost, heq⟩ := this
    exact ⟨s', ms, hle a s' ms hpost, heq⟩

theorem Scans.map {s : σ} {p : Scan ε α} {f : α → β} {post : β → σ → List μ → Prop}
    (h : Scans on keep s p fun a => post (f a)) : Scans on keep s (p >>= fun a => pure (f a)) post := by
  intro es
  have := h es
  simp only [run_bind, run_pure]
  split at this
  · next hp => simpa only [hp] using this
  · next a rest hp => simpa only [hp] using this

/-- **One scan after another**, when nothing has been answered between them. -/
theorem Scans.bind {s : σ} {p : Scan ε α} {f : α → Scan ε β} (mid : α → σ → Prop) {post : β → σ → List μ → Prop}
    (h : Scans on keep s p fun a s' ms => mid a s' ∧ ms = [])
    (hf : ∀ a s', mid a s' → Scans on keep s' (f a) post) : Scans on keep s (p >>= f) post := by
  intro es
  have hes := h es
  rw [run_bind]
  split at hes
  · next hp => simpa only [hp] using hes
  · next a rest hp =>
    obtain ⟨s', ms, ⟨hmid, rfl⟩, heq⟩ := hes
    have hrest := hf a s' hmid rest
    rw [show answers on keep s es = answers on keep s' rest by rw [heq]; simp]
    exact hrest

theorem Waits.bind {s : σ} {fits : ε → Option α} {go : α → σ} {f : α → Scan ε β} {post : β → σ → List μ → Prop}
    (h : Waits on keep s fits go fun _ => none) (hf : ∀ a, Scans on keep (go a) (f a) post) :
    Scans on keep s (next fits >>= f) post := by
  refine Scans.bind (fun a s' => s' = go a) (h.scans.mono fun a s' ms hp => ⟨hp.1, hp.2⟩) ?_
  rintro a s' rfl
  exact hf a

theorem Waits.last {s : σ} {fits : ε → Option α} {go : α → σ} {f : α → β} {out : α → μ} {post : β → σ → List μ → Prop}
    (h : Waits on keep s fits go fun a => some (out a)) (hpost : ∀ a, post (f a) (go a) [out a]) :
    Scans on keep s (next fits >>= fun a => pure (f a)) post := by
  refine Scans.map (h.scans.mono ?_)
  rintro a s' ms ⟨rfl, rfl⟩
  exact hpost a

/-- **A machine that carries out a scan and starts again answers what the
scan reads over and over.** -/
theorem answers_readAll {p : Scan ε μ} (hp : Shortens p) (starts : σ → Prop)
    (h : ∀ s, starts s → Scans on keep s p fun m s' ms => starts s' ∧ ms = [m]) {s : σ} (hs : starts s) (es : List ε) :
    answers on keep s es = some (readAll p hp es) := by
  induction hn : es.length using Nat.strongRecOn generalizing s es with
  | _ n ih =>
    have hes := h s hs es
    cases hpe : p.run es with
    | none =>
      rw [hpe] at hes
      rw [readAll_none hpe]
      exact hes
    | some found =>
      obtain ⟨m, rest⟩ := found
      rw [hpe] at hes
      obtain ⟨s', ms, ⟨hs', rfl⟩, heq⟩ := hes
      rw [readAll_some hpe, heq, ih rest.length (hn ▸ hp es m rest hpe) hs' rest rfl]
      rfl

end Scanning
