/-
The states `Run` goes through: each is told by the items read before it and
the frame it faces (`CborReader.within_of_passes`), and every end of an item
is come to (`CborReader.passes_reads`).
-/
import Zql.Reading

namespace Zql

open Looping

/-! ## Input -/

/-- The same input, at the same offset or further on. -/
structure CborInput.Follows (i i' : CborInput) : Prop where
  data : i'.data = i.data
  size : i'.size = i.size
  offset : i.offset ≤ i'.offset

theorem CborInput.Follows.refl (i : CborInput) : i.Follows i := ⟨rfl, rfl, Nat.le_refl _⟩

theorem CborInput.Follows.trans {i i' i'' : CborInput} (h : i.Follows i') (h' : i'.Follows i'') : i.Follows i'' where
  data := h'.data.trans h.data
  size := h'.size.trans h.size
  offset := Nat.le_trans h.offset h'.offset

theorem CborInput.getBigEndian_follows {n value : Nat} {i i' : CborInput} (h : i.getBigEndian n = some (value, i')) :
    i.Follows i' := by
  simp only [getBigEndian] at h
  split at h
  · cases h
    exact ⟨rfl, rfl, Nat.le_add_right _ _⟩
  · cases h

theorem CborInput.getBytes_follows {count : Nat} {data : List UInt8} {i i' : CborInput}
    (h : i.getBytes count = some (data, i')) : i.Follows i' := by
  simp only [getBytes] at h
  split at h
  · cases h
    exact ⟨rfl, rfl, Nat.le_add_right _ _⟩
  · cases h

theorem CborInput.map_follows {α : Type} {n : Nat} {f : Nat → α} {i i' : CborInput} {a : α}
    (h : ((i.getBigEndian n).map fun (value, i) => (f value, i)) = some (a, i')) : i.Follows i' := by
  obtain ⟨⟨value, i₁⟩, hget, heq⟩ := Option.map_eq_some_iff.mp h
  cases heq
  exact getBigEndian_follows hget

theorem CborInput.At.eq_drop {i : CborInput} {l : List UInt8} (h : i.At l) (hsize : i.size = i.data.length) :
    l = i.data.drop i.offset := by
  obtain ⟨beyond, hbeyond⟩ := h.data
  have hlength := congrArg List.length hbeyond
  have := h.size
  rw [List.length_append, List.length_drop] at hlength
  have hnil : beyond = [] := List.length_eq_zero_iff.mp (by omega)
  rw [hbeyond, hnil, List.append_nil]

namespace CborReader

theorem reading_again {α : Type} {read : Option (α × CborInput)} {next : α → CborInput → Pass}
    {s : CborReader × Option CborEvent} (h : reading read next = .again s) :
    ∃ value input, read = some (value, input) ∧ next value input = .again s := by
  unfold reading at h
  split at h
  · exact ⟨_, _, rfl, h⟩
  · cases h

theorem header_follows {r r' : CborReader} {minorType : UInt8} {small : CborReader × Option CborEvent}
    {state : CborReaderState} {error : String} {event : Option CborEvent} (hsmall : small.1.input = r.input)
    (h : r.header minorType small state error = .again (r', event)) : r'.input = r.input := by
  unfold header at h
  split at h
  · cases h
    exact hsmall
  repeat' split at h
  all_goals
    cases h
    rfl

theorem type_follows {r r' : CborReader} {event : Option CborEvent} (h : r.type = .again (r', event)) :
    r.input.Follows r'.input := by
  unfold type at h
  split at h
  · obtain ⟨value, input, hget, hnext⟩ := reading_again h
    have hinput : r'.input = input := by
      dsimp only at hnext
      split at hnext
      all_goals first
        | exact header_follows (r := { r with input }) rfl hnext
        | (cases hnext; rfl)
    rw [hinput]
    exact CborInput.map_follows hget
  · cases h

theorem argument_follows {r r' : CborReader} {short : UInt32 → CborReader → CborReader × Option CborEvent}
    {long : CborReader → Pass} {event : Option CborEvent} (hshort : ∀ value r, (short value r).1.input = r.input)
    (hlong : ∀ r', long r = .again (r', event) → r.input.Follows r'.input)
    (h : r.argument short long = .again (r', event)) : r.input.Follows r'.input := by
  unfold argument at h
  split at h
  · split at h
    · obtain ⟨value, input, hget, hnext⟩ := reading_again h
      have hinput := hshort value.toUInt32 { r with input }
      rw [Turn.again.inj hnext] at hinput
      rw [hinput]
      exact CborInput.map_follows hget
    split at h
    · obtain ⟨value, input, hget, hnext⟩ := reading_again h
      have hinput := hshort value.toUInt32 { r with input }
      rw [Turn.again.inj hnext] at hinput
      rw [hinput]
      exact CborInput.map_follows hget
    split at h
    · obtain ⟨value, input, hget, hnext⟩ := reading_again h
      have hinput := hshort value { r with input }
      rw [Turn.again.inj hnext] at hinput
      rw [hinput]
      exact CborInput.map_follows hget
    split at h
    · exact hlong r' h
    · cases h
      exact .refl _
  · cases h

theorem long_follows {r r' : CborReader} {next : CborInput → CborReader × Option CborEvent} {event : Option CborEvent}
    (hnext : ∀ input, (next input).1.input = input)
    (h : (reading r.input.getLong fun _ input => .again (next input)) = .again (r', event)) :
    r.input.Follows r'.input := by
  obtain ⟨value, input, hget, h⟩ := reading_again h
  have hinput := hnext input
  rw [Turn.again.inj h] at hinput
  rw [hinput]
  exact CborInput.map_follows hget

theorem payload_follows {r r' : CborReader} {kind : List UInt8 → CborEvent} {event : Option CborEvent}
    (h : r.payload kind = .again (r', event)) : r.input.Follows r'.input := by
  unfold payload at h
  split at h
  · split at h
    · cases h
    · obtain ⟨data, input, hget, hnext⟩ := reading_again h
      cases hnext
      exact CborInput.getBytes_follows hget
  · cases h

/-- **A pass reads on from where the last one left off.** -/
theorem pass_follows {r r' : CborReader} {event : Option CborEvent} (h : r.pass = .again (r', event)) :
    r.input.Follows r'.input := by
  have hskip : ∀ {r r' : CborReader}, r.skipLong = .again (r', event) → r.input.Follows r'.input :=
    fun h => long_follows (fun _ => rfl) h
  have hsame : ∀ {r r' : CborReader} {state : CborReaderState},
      Turn.again ({ r with state }, none) = Turn.again (ρ := CborEnd) (r', event) → r.input.Follows r'.input := by
    intro r r' state h
    cases h
    exact .refl _
  unfold pass at h
  split at h
  · exact type_follows h
  · exact argument_follows (fun _ _ => rfl) (fun _ => hskip) h
  · exact argument_follows (fun _ _ => rfl) (fun _ => hsame) h
  · exact argument_follows (fun _ _ => rfl) (fun _ => long_follows fun _ => rfl) h
  · exact payload_follows h
  · exact argument_follows (fun _ _ => rfl) (fun _ => long_follows fun _ => rfl) h
  · exact payload_follows h
  · exact argument_follows (fun _ _ => rfl) (fun _ => hsame) h
  · exact argument_follows (fun _ _ => rfl) (fun _ => hsame) h
  · exact argument_follows (fun _ _ => rfl) (fun _ => hskip) h
  · exact argument_follows (fun _ _ => rfl) (fun _ => hskip) h

end CborReader

/-! ## Along the items -/

/-- For the items between the first bytes and the second the listener is
called with these events. -/
inductive Reads : List UInt8 → List CborEvent → List UInt8 → Prop
  | done (l : List UInt8) : Reads l [] l
  | item {l rest l' : List UInt8} {event : Option CborEvent} {events : List CborEvent} : frame l = .item event rest →
      Reads rest events l' → Reads l (event.toList ++ events) l'

theorem Reads.boundary {l l' : List UInt8} {events : List CborEvent} (h : Reads l events l') : Boundary l l' := by
  induction h with
  | done l => exact .start l
  | item hf _ ih => exact .item hf ih

/-- The items lead to a place where no item is all there. -/
theorem reads_items (l : List UInt8) : ∃ l', Reads l (items l) l' ∧ ∀ event rest, frame l' ≠ .item event rest := by
  induction hn : l.length using Nat.strong_induction_on generalizing l with
  | _ n ih =>
    by_cases hitem : ∃ event rest, frame l = .item event rest
    · obtain ⟨event, rest, hf⟩ := hitem
      obtain ⟨l', hreads, hend⟩ := ih rest.length (hn ▸ frame_shorter hf) rest rfl
      rw [items_item hf]
      exact ⟨l', .item hf hreads, hend⟩
    · have hend : ∀ event rest, frame l ≠ .item event rest := fun event rest hf => hitem ⟨event, rest, hf⟩
      rw [items_ended hend]
      exact ⟨l, .done l, hend⟩

/-- What the items come to. -/
def ending (l : List UInt8) : Frame :=
  match h : frame l with
  | .item _ rest =>
    have := frame_shorter h
    ending rest
  | f => f
termination_by l.length

theorem ending_ended {l : List UInt8} (h : ∀ event rest, frame l ≠ .item event rest) : ending l = frame l := by
  rw [ending]
  split
  · next h' => exact absurd h' (h _ _)
  · rfl

theorem Reads.ending {l l' : List UInt8} {events : List CborEvent} (h : Reads l events l') : ending l = ending l' := by
  induction h with
  | done l => rfl
  | item hf _ ih =>
    rw [Zql.ending]
    split
    · next h' =>
      rw [hf] at h'
      cases h'
      exact ih
    · next hne => exact absurd hf (hne _ _)

theorem Reads.length_le {l l' : List UInt8} {events : List CborEvent} (h : Reads l events l') : l'.length ≤ l.length := by
  induction h with
  | done l => exact Nat.le_refl _
  | item hf _ ih =>
    have := frame_shorter hf
    omega

theorem Reads.between {l l₁ l₂ : List UInt8} {es fs : List CborEvent} (h₁ : Reads l es l₁) (h₂ : Reads l fs l₂)
    (hle : l₂.length ≤ l₁.length) : ∃ gs, Reads l₁ gs l₂ := by
  induction h₁ generalizing fs with
  | done l => exact ⟨fs, h₂⟩
  | @item l rest l₁ event es hf hrest ih =>
    cases h₂ with
    | done _ =>
      have hshort := frame_shorter hf
      have := hrest.length_le
      omega
    | item hf' hrest' =>
      rw [hf] at hf'
      cases hf'
      exact ih hrest' hle

theorem Boundary.reads {l l' : List UInt8} (h : Boundary l l') : ∃ events, Reads l events l' := by
  induction h with
  | start l => exact ⟨[], .done l⟩
  | item hf _ ih =>
    obtain ⟨events, hreads⟩ := ih
    exact ⟨_, .item hf hreads⟩

theorem Reads.one {l rest : List UInt8} {event : Option CborEvent} (h : frame l = .item event rest) :
    Reads l event.toList rest := by
  simpa using Reads.item h (.done rest)

theorem Reads.trans {l l' l'' : List UInt8} {es fs : List CborEvent} (h : Reads l es l') (h' : Reads l' fs l'') :
    Reads l (es ++ fs) l'' := by
  induction h with
  | done l => exact h'
  | item hf _ ih =>
    rw [List.append_assoc]
    exact .item hf (ih h')

namespace CborReader

/-- Somewhere within the item at the head of the bytes. -/
structure Within (r : CborReader) (l : List UInt8) : Prop where
  faces : r.Faces (frame l)
  header : r.state = .type → r.input.At l

theorem Within.start {r : CborReader} {l : List UInt8} (hs : r.state = .type) (hi : r.input.At l) : r.Within l :=
  ⟨.header hs hi, fun _ => hi⟩

theorem rank_le (r : CborReader) : r.rank ≤ 2 := by
  unfold rank
  split <;> omega

/-- A pass stays within the item or is the last of it. -/
theorem Within.pass {r r' : CborReader} {l : List UInt8} {event : Option CborEvent} (h : r.Within l)
    (hp : r.pass = .again (r', event)) : ∃ l', Reads l event.toList l' ∧ r'.Within l' := by
  have hturns := h.faces.turns
  rw [hp] at hturns
  cases hturns with
  | within hfaces hrank =>
    refine ⟨l, .done l, hfaces, fun hs => ?_⟩
    have hle := rank_le r
    rw [rank_type hs] at hrank
    omega
  | @item r' event rest hf hs hi => exact ⟨rest, .one hf, .start hs hi⟩
  | stuck hf => exact ⟨l, .done l, h⟩

theorem body_again {L E : Type*} {on : L → CborEvent → Except E L} {r : CborReader} {x : L} {s : CborReader × L}
    (h : body on (r, x) = .again s) :
    ∃ event : Option CborEvent, r.pass = .again (s.1, event) ∧ event.toList.foldlM on x = .ok s.2 := by
  simp only [body] at h
  split at h
  · next hp =>
    cases h
    exact ⟨none, hp, rfl⟩
  · next r' event hp =>
    split at h
    · next x' hx =>
      cases h
      refine ⟨some event, hp, ?_⟩
      rw [Option.toList_some, List.foldlM_cons, hx]
      rfl
    · cases h
  · cases h

/-- **Every state `Run` comes to** is within the item after those its listener
took. -/
theorem within_of_passes {L E : Type*} {on : L → CborEvent → Except E L} {s s' : CborReader × L}
    (h : Passes (body on) s s') {l : List UInt8} (hw : s.1.Within l) :
    ∃ events l', Reads l events l' ∧ events.foldlM on s.2 = .ok s'.2 ∧ s'.1.Within l' ∧
      s.1.input.Follows s'.1.input := by
  induction h generalizing l with
  | refl s => exact ⟨[], l, .done l, rfl, hw, .refl _⟩
  | @step s s₁ s' hbody _ ih =>
    obtain ⟨r, x⟩ := s
    obtain ⟨event, hp, hx⟩ := body_again hbody
    obtain ⟨l₁, hreads, hw'⟩ := hw.pass hp
    obtain ⟨fs, l', hreads', hx', hw'', hfollows⟩ := ih hw'
    refine ⟨_, l', hreads.trans hreads', ?_, hw'', (pass_follows hp).trans hfollows⟩
    rw [List.foldlM_append, hx]
    exact hx'

theorem faces_of_passes {L : Type*} {f : L → CborEvent → L} {r r' : CborReader} {l : List UInt8} {x x' : L}
    (h : Passes (body (always f)) (r, x) (r', x')) (hs : r.state = .type) (hi : r.input.At l) :
    ∃ events l', Reads l events l' ∧ x' = events.foldl f x ∧ r'.Within l' ∧ r.input.Follows r'.input := by
  obtain ⟨events, l', hreads, hx, hw, hfollows⟩ := within_of_passes h (.start hs hi)
  rw [foldlM_always] at hx
  exact ⟨events, l', hreads, (Except.ok.inj hx).symm, hw, hfollows⟩

/-- What goes round for ever is a negative integer of eight bytes. -/
theorem stuck_of_again {L E : Type*} {on : L → CborEvent → Except E L} {r : CborReader} {x : L} {l : List UInt8}
    (hw : r.Within l) (h : body on (r, x) = .again (r, x)) : frame l = .stuck := by
  obtain ⟨event, hp, -⟩ := body_again h
  have hturns := hw.faces.turns
  rw [hp] at hturns
  cases hturns with
  | within _ hrank => exact absurd hrank (Nat.lt_irrefl _)
  | item hf hs hi =>
    -- it would be before the item and after it
    have hshort := frame_shorter hf
    have hlength := hi.size.symm.trans (hw.header hs).size
    omega
  | stuck hf => exact hf

/-- **`Run` comes to an end**, or to where it goes round for ever, whatever its
listener does. -/
theorem ends_or_again {L E : Type*} (on : L → CborEvent → Except E L) {r : CborReader} {l : List UInt8}
    (hs : r.state = .type) (hi : r.input.At l) (x : L) :
    ∃ s, Passes (body on) (r, x) s ∧ (body on s = .again s ∨ ∃ result, body on s = .leave result) := by
  induction hn : l.length using Nat.strong_induction_on generalizing r l x with
  | _ n ih =>
    have hdoes := does_frame hs hi
    cases hf : frame l with
    | incomplete =>
      rw [hf] at hdoes
      obtain ⟨r', hp, hpasses⟩ := Leads.passes hdoes on x
      exact ⟨_, hpasses, .inr ⟨_, body_leave x hp⟩⟩
    | item event rest =>
      rw [hf] at hdoes
      obtain ⟨r'', hs'', hi'', hleads⟩ := hdoes
      obtain ⟨r', hp, hpasses⟩ := Leads.passes hleads on x
      have hrest := fun x => ih rest.length (hn ▸ frame_shorter hf) hs'' hi'' x rfl
      cases event with
      | none =>
        obtain ⟨s, hpasses', hend⟩ := hrest x
        exact ⟨s, hpasses.trans (.step (body_quiet x hp) hpasses'), hend⟩
      | some event =>
        cases hx : on x event with
        | ok x' =>
          obtain ⟨s, hpasses', hend⟩ := hrest x'
          exact ⟨s, hpasses.trans (.step (body_call hp hx) hpasses'), hend⟩
        | error e => exact ⟨_, hpasses, .inr ⟨_, body_error hp hx⟩⟩
    | stuck =>
      rw [hf] at hdoes
      obtain ⟨r', hleads, hself⟩ := hdoes
      obtain ⟨r'', hp, hpasses⟩ := Leads.passes hleads on x
      exact ⟨(r', x), hpasses.trans (.step (body_quiet x hp) (.refl _)), .inl (body_quiet x hself)⟩
    | overlong =>
      rw [hf] at hdoes
      obtain ⟨r', hp, hpasses⟩ := Leads.passes hdoes on x
      exact ⟨_, hpasses, .inr ⟨_, body_leave x hp⟩⟩

/-- **Every end of an item is come to**, when the listener takes the calls up
to there. -/
theorem passes_told {L E : Type*} {on : L → CborEvent → Except E L} {r : CborReader} {l l' : List UInt8}
    {events : List CborEvent} (h : Reads l events l') (hs : r.state = .type) (hi : r.input.At l) {x x' : L}
    (hx : events.foldlM on x = .ok x') :
    ∃ r', r'.state = .type ∧ r'.input.At l' ∧ Passes (body on) (r, x) (r', x') := by
  induction h generalizing r x with
  | done l =>
    cases hx
    exact ⟨r, hs, hi, .refl _⟩
  | @item l rest l' event events hf _ ih =>
    have hdoes := does_frame hs hi
    rw [hf] at hdoes
    obtain ⟨r₁, hs₁, hi₁, hleads⟩ := hdoes
    obtain ⟨r₂, hp, hpasses⟩ := Leads.passes hleads on x
    cases event with
    | none =>
      obtain ⟨r', hs', hi', hrest⟩ := ih hs₁ hi₁ hx
      exact ⟨r', hs', hi', hpasses.trans (.step (body_quiet x hp) hrest)⟩
    | some event =>
      rw [Option.toList_some, List.singleton_append, List.foldlM_cons] at hx
      cases hon : on x event with
      | error e =>
        rw [hon] at hx
        cases hx
      | ok x₁ =>
        rw [hon] at hx
        obtain ⟨r', hs', hi', hrest⟩ := ih hs₁ hi₁ hx
        exact ⟨r', hs', hi', hpasses.trans (.step (body_call hp hon) hrest)⟩

theorem passes_reads {L : Type*} (f : L → CborEvent → L) {r : CborReader} {l l' : List UInt8}
    {events : List CborEvent} (h : Reads l events l') (hs : r.state = .type) (hi : r.input.At l) (x : L) :
    ∃ r', r'.state = .type ∧ r'.input.At l' ∧ Passes (body (always f)) (r, x) (r', events.foldl f x) :=
  passes_told h hs hi (foldlM_always f x events)

end CborReader

/-! ## Whole messages -/

/-- The calls of a listener that writes them down. -/
def noted (events : List CborEvent) (event : CborEvent) : List CborEvent := events ++ [event]

theorem foldl_noted (events events' : List CborEvent) : events'.foldl noted events = events ++ events' := by
  induction events' generalizing events with
  | nil => simp
  | cons event events' ih => simp only [List.foldl_cons, ih, noted, List.append_assoc, List.singleton_append]

/-- `Run` over a message comes to this state, with these calls made. -/
def Reached (data : List UInt8) (r : CborReader) (events : List CborEvent) : Prop :=
  Passes (CborReader.body (always noted)) (.new (.new data), []) (r, events)

theorem new_size {data : List UInt8} (h : data.length < 2 ^ 31) : (CborInput.new data).size = data.length := by
  simp only [CborInput.new]
  exact Int.bmod_eq_of_le (by omega) (by omega)

theorem at_start {data : List UInt8} (h : data.length < 2 ^ 31) : (CborReader.new (.new data)).input.At data := by
  have hat : (CborReader.new (.new data)).input.At (visible data) := at_new (by rw [new_size h]; omega)
  rwa [visible_eq h] at hat

theorem offset_of_at {data l : List UInt8} {r : CborReader} (h : data.length < 2 ^ 31)
    (hfollows : (CborReader.new (.new data)).input.Follows r.input) (hi : r.input.At l) :
    r.input.offset + l.length = data.length := by
  have hsize := hi.size
  rw [hfollows.size, show (CborReader.new (.new data)).input.size = data.length from new_size h] at hsize
  omega

theorem left_of_at {data l : List UInt8} {r : CborReader} (h : data.length < 2 ^ 31)
    (hfollows : (CborReader.new (.new data)).input.Follows r.input) (hi : r.input.At l) :
    l = data.drop r.input.offset := by
  have hsize : r.input.size = r.input.data.length := by
    rw [hfollows.size, hfollows.data]
    exact new_size h
  rw [hi.eq_drop hsize, hfollows.data]
  rfl

theorem reached_reads {data l : List UInt8} {events : List CborEvent} (h : data.length < 2 ^ 31)
    (hreads : Reads data events l) : ∃ r, Reached data r events ∧ r.state = .type ∧ r.input.At l := by
  obtain ⟨r, hs, hi, hpasses⟩ := CborReader.passes_reads noted hreads rfl (at_start h) []
  rw [foldl_noted, List.nil_append] at hpasses
  exact ⟨r, hpasses, hs, hi⟩

theorem Reached.within {data : List UInt8} {r : CborReader} {events : List CborEvent} (hr : Reached data r events)
    (h : data.length < 2 ^ 31) : ∃ l, Reads data events l ∧ r.Within l ∧
      (CborReader.new (.new data)).input.Follows r.input := by
  obtain ⟨es, l, hreads, hes, hw, hfollows⟩ := CborReader.faces_of_passes hr rfl (at_start h)
  rw [foldl_noted, List.nil_append] at hes
  exact ⟨l, hes ▸ hreads, hw, hfollows⟩

theorem returns_reads {data l : List UInt8} {events : List CborEvent} (h : data.length < 2 ^ 31)
    (hreads : Reads data events l) (hf : frame l = .incomplete) :
    Returns (CborReader.body (always noted)) (.new (.new data), []) (.ok (.returned, events)) := by
  obtain ⟨r, hr, hs, hi⟩ := reached_reads h hreads
  have hdoes := CborReader.does_frame hs hi
  rw [hf] at hdoes
  obtain ⟨r', hp, hpasses⟩ := CborReader.Leads.passes hdoes (always noted) events
  rw [(hr.trans hpasses).returns_iff]
  exact returns_leave (CborReader.body_leave events hp)

end Zql
