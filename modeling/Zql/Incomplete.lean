/-
What a parser makes of a part of its input. An item is told once its bytes
are there, whatever comes after them (`frame_more`), so that the calls for
the first bytes of an input are the first of the calls for all of it; and
the last item of a message is told at its last byte, so that nothing is
made of one that is not all there.

How much of its input a reader sees is in the size it is given, an `int`.
It sees all of less than 2^31 bytes. Of longer ones it may see less than of
a part of them, and then it makes fewer calls (`whole_makes_fewer_calls`).
-/
import Zql.Replies
import Zql.Stale

namespace Zql

open Looping Scanning

/-! ## Items with more bytes behind them -/

def Frame.append (more : List UInt8) : Frame → Frame
  | .item event rest => .item event (rest ++ more)
  | f => f

theorem frameBytes_more {major : Nat} {length : Int32} {l : List UInt8} (h : frameBytes major length l ≠ .incomplete)
    (more : List UInt8) : frameBytes major length (l ++ more) = (frameBytes major length l).append more := by
  unfold frameBytes at h ⊢
  split
  · rfl
  next hlength =>
  rw [if_neg hlength] at h
  split at h
  · exact absurd rfl h
  next hall =>
  have hle : length.toInt.toNat ≤ l.length := Nat.le_of_not_lt hall
  rw [if_neg hall, if_neg (by rw [List.length_append]; omega), List.take_append_of_le_length hle,
    List.drop_append_of_le_length hle]
  rfl

theorem frameValue_more {major : Nat} {value : UInt32} {l : List UInt8} (h : frameValue major value l ≠ .incomplete)
    (more : List UInt8) : frameValue major value (l ++ more) = (frameValue major value l).append more := by
  unfold frameValue at h ⊢
  split
  · next ht =>
    rw [if_pos ht] at h
    exact frameBytes_more h more
  · rfl

theorem frameArgument_more {major width : Nat} {l : List UInt8} (h : frameArgument major width l ≠ .incomplete)
    (more : List UInt8) : frameArgument major width (l ++ more) = (frameArgument major width l).append more := by
  unfold frameArgument at h ⊢
  split at h
  · exact absurd rfl h
  next hall =>
  have hle : width ≤ l.length := Nat.le_of_not_lt hall
  rw [if_neg hall, if_neg (by rw [List.length_append]; omega), List.take_append_of_le_length hle,
    List.drop_append_of_le_length hle]
  exact frameValue_more h more

theorem frameLong_more {major : Nat} {l : List UInt8} (h : frameLong major l ≠ .incomplete) (more : List UInt8) :
    frameLong major (l ++ more) = (frameLong major l).append more := by
  unfold frameLong at h ⊢
  split at h
  · exact absurd rfl h
  next hall =>
  have hle : 8 ≤ l.length := Nat.le_of_not_lt hall
  rw [if_neg hall, if_neg (by rw [List.length_append]; omega), List.drop_append_of_le_length hle]
  split
  · rfl
  · exact frameBytes_more h more
  · exact frameBytes_more h more
  · rfl
  · rfl
  · rfl

/-- **What is all there is the same with more bytes behind it.** -/
theorem frame_more {l : List UInt8} (h : frame l ≠ .incomplete) (more : List UInt8) :
    frame (l ++ more) = (frame l).append more := by
  cases l with
  | nil => exact absurd rfl h
  | cons b l =>
    simp only [List.cons_append, frame] at h ⊢
    split
    · next hminor =>
      rw [if_pos hminor] at h
      exact frameValue_more h more
    next h₁ =>
    rw [if_neg h₁] at h
    split
    · next hminor =>
      rw [if_pos hminor] at h
      exact frameArgument_more h more
    next h₂ =>
    rw [if_neg h₂] at h
    split
    · next hminor =>
      rw [if_pos hminor] at h
      exact frameArgument_more h more
    next h₃ =>
    rw [if_neg h₃] at h
    split
    · next hminor =>
      rw [if_pos hminor] at h
      exact frameArgument_more h more
    next h₄ =>
    rw [if_neg h₄] at h
    split
    · next hminor =>
      rw [if_pos hminor] at h
      exact frameLong_more h more
    · rfl

theorem Reads.more {l l' : List UInt8} {events : List CborEvent} (h : Reads l events l') (more : List UInt8) :
    Reads (l ++ more) events (l' ++ more) := by
  induction h with
  | done l => exact .done _
  | @item l rest l' event events hf _ ih =>
    have hframe := frame_more (l := l) (by rw [hf]; nofun) more
    rw [hf] at hframe
    exact .item hframe ih

/-- **The items of the first bytes are the first items.** -/
theorem items_more (l more : List UInt8) : ∃ events, items (l ++ more) = items l ++ events := by
  obtain ⟨l', hreads, -⟩ := reads_items l
  exact ⟨_, (hreads.more more).items_eq⟩

/-! ## Runs -/

/-- How `Run` ends where no item is all there. -/
inductive Frame.Ends : Frame → CborEnd → Prop
  | incomplete : Ends .incomplete .returned
  | overlong : Ends .overlong .thrown

theorem Frame.Ends.inside {f : Frame} {e : CborEnd} (h : f.Ends e) : e ≠ .outOfBounds := by
  cases h <;> nofun

namespace ObjectParser

theorem passes_feed {p p' : ObjectParser} {data l : List UInt8} {events : List CborEvent} {calls : List ObjectCall}
    (hsize : 0 ≤ (CborInput.new data).size) (hreads : Reads (visible data) events l)
    (hfeed : feed on { p with state := .init } events = some (p', calls)) :
    ∃ r, r.state = .type ∧ r.input.At l ∧
      Passes (CborReader.body (listen record)) (.new (.new data), ({ p with state := .init }, [])) (r, (p', calls)) := by
  refine CborReader.passes_told hreads (new_state _) (at_new hsize) ?_
  rw [foldlM_listen record hfeed, foldlM_record]
  rfl

/-- **`Run` makes the calls for the items**, and ends where they end. -/
theorem run_ends {p p' : ObjectParser} {data l : List UInt8} {events : List CborEvent} {calls : List ObjectCall}
    {e : CborEnd} (hreads : Reads (visible data) events l) (hend : (frame l).Ends e)
    (hfeed : feed on { p with state := .init } events = some (p', calls)) :
    ∃ fuel, run record fuel p data [] = some (.ok (e, p', calls)) := by
  by_cases hsize : 0 ≤ (CborInput.new data).size
  · obtain ⟨r, hs, hi, hpasses⟩ := passes_feed hsize hreads hfeed
    have hdoes := CborReader.does_frame hs hi
    refine (hpasses.returns_iff _).mpr ?_
    generalize frame l = f at hend hdoes
    cases hend <;>
    · obtain ⟨r', hp, hquiet⟩ := CborReader.Leads.passes hdoes (listen record) (p', calls)
      exact (hquiet.returns_iff _).mpr (returns_leave (CborReader.body_leave _ hp))
  · obtain ⟨hnil, hpass⟩ := unseen hsize
    rw [hnil] at hreads
    cases hreads with
    | done _ =>
      cases hend
      cases hfeed
      exact returns_leave (CborReader.body_leave _ hpass)
    | item hf _ => cases hf

/-- Where they end in what it is never done with, it does not end. -/
theorem run_stuck {p : ObjectParser} {data l : List UInt8} {events : List CborEvent}
    (hreads : Reads (visible data) events l) (hf : frame l = .stuck) (fuel : Nat)
    (result : Except (Failure Empty) (CborEnd × ObjectParser × List ObjectCall)) :
    run record fuel p data [] ≠ some result := by
  have hsize : 0 ≤ (CborInput.new data).size := by
    by_contra hneg
    rw [(unseen hneg).1] at hreads
    cases hreads with
    | done _ => cases hf
    | item hf' _ => cases hf'
  intro hrun
  obtain ⟨p', calls, hfeed, -⟩ := feeds (p := { p with state := .init }) rfl events
  obtain ⟨r, hs, hi, hpasses⟩ := passes_feed hsize hreads hfeed
  have hdoes := CborReader.does_frame hs hi
  rw [hf] at hdoes
  obtain ⟨r₁, hleads, hself⟩ := hdoes
  obtain ⟨r₂, hp, hquiet⟩ := CborReader.Leads.passes hleads (listen record) (p', calls)
  have hreturns : Returns (CborReader.body (listen record)) (r₁, (p', calls)) result := by
    rw [← returns_again (CborReader.body_quiet _ hp), ← hquiet.returns_iff, ← hpasses.returns_iff]
    exact ⟨fuel, hrun⟩
  refine not_returns (I := fun s => s = (r₁, (p', calls))) (fun s hs => ⟨(r₁, (p', calls)), ?_, rfl⟩) rfl result hreturns
  rw [hs]
  exact CborReader.body_quiet _ hself

theorem ends_or_stuck (l : List UInt8) :
    ∃ l', Reads l (items l) l' ∧ ((∃ e, (frame l').Ends e) ∨ frame l' = .stuck) := by
  obtain ⟨l', hreads, hend⟩ := reads_items l
  refine ⟨l', hreads, ?_⟩
  cases hf : frame l' with
  | incomplete => exact .inl ⟨_, .incomplete⟩
  | item event rest => exact absurd hf (hend event rest)
  | stuck => exact .inr rfl
  | overlong => exact .inl ⟨_, .overlong⟩

/-- **The calls for a part of an input are the first of the calls for all of
it.** -/
theorem calls_of_part {s t : List UInt8} {more : List UInt8} (hseen : visible (s ++ t) = visible s ++ more)
    {p q : ObjectParser} {fuel : Nat} {e : CborEnd} {calls : List ObjectCall}
    (hrun : run record fuel p (s ++ t) [] = some (.ok (e, q, calls))) (p' : ObjectParser) :
    ∃ fuel' e' q' calls', run record fuel' p' s [] = some (.ok (e', q', calls')) ∧ e' ≠ .outOfBounds ∧
      calls' <+: calls := by
  obtain ⟨q₁, calls₁, hfeed₁, -⟩ := feeds (p := { p with state := .init }) rfl (items (visible s))
  have hagree : Agree { p with state := .init } { p' with state := .init } := ⟨rfl, nofun, nofun, nofun, nofun⟩
  obtain ⟨q', hfeed'⟩ := feed_alike hagree hfeed₁
  obtain ⟨l', hreads', ⟨e', hend'⟩ | hstuck⟩ := ends_or_stuck (visible s)
  · obtain ⟨fuel', hrun'⟩ := run_ends hreads' hend' hfeed'
    refine ⟨fuel', e', q', calls₁, hrun', hend'.inside, ?_⟩
    obtain ⟨l, hreads, ⟨e₂, hend⟩ | hstuck⟩ := ends_or_stuck (visible (s ++ t))
    · obtain ⟨events, hitems⟩ := items_more (visible s) more
      rw [← hseen] at hitems
      obtain ⟨q₂, calls₂, hfeed₂, -⟩ := feeds (p := { p with state := .init }) rfl (items (visible (s ++ t)))
      obtain ⟨fuel₂, hrun₂⟩ := run_ends hreads hend hfeed₂
      obtain ⟨rfl, rfl, rfl⟩ : e₂ = e ∧ q₂ = q ∧ calls₂ = calls := by
        cases run_unique hrun₂ hrun
        exact ⟨rfl, rfl, rfl⟩
      rw [hitems] at hfeed₂
      obtain ⟨_, first, rest, hfirst, -, rfl⟩ := feed_split hfeed₂
      rw [hfeed₁] at hfirst
      cases hfirst
      exact List.prefix_append ..
    · exact absurd hrun (run_stuck hreads hstuck fuel _)
  · -- the same item is in the way of the whole input
    have hmore := hreads'.more more
    have hframe := frame_more (l := l') (by rw [hstuck]; nofun) more
    rw [hstuck] at hframe
    rw [← hseen] at hmore
    exact absurd hrun (run_stuck hmore hframe fuel _)

end ObjectParser

theorem visible_part {s t : List UInt8} (h : (visible s).length ≤ (visible (s ++ t)).length) :
    ∃ more, visible (s ++ t) = visible s ++ more := by
  have hpart : visible s <+: s ++ t := (List.take_prefix ..).trans (List.prefix_append ..)
  obtain ⟨more, hmore⟩ := List.prefix_of_prefix_length_le hpart (List.take_prefix ..) h
  exact ⟨more, hmore.symm⟩

/-! ## Messages that are not all there -/

theorem reads_part {calls : List CborCall} (hpayload : ∀ c ∈ calls, c.payload.length < 2 ^ 31) {u v : List UInt8}
    (h : encodings calls = u ++ v) (hv : v ≠ []) :
    ∃ j < calls.length, ∃ tail, Reads u ((calls.take j).map CborCall.event) tail ∧ frame tail = .incomplete := by
  induction calls generalizing u with
  | nil => exact absurd (List.append_eq_nil_iff.mp h.symm).2 hv
  | cons c calls ih =>
    have hsmall := hpayload c List.mem_cons_self
    rw [encodings, List.flatMap_cons] at h
    have hwhole : u <+: u ++ v := List.prefix_append ..
    have hfirst : c.encoding <+: u ++ v := h ▸ List.prefix_append ..
    by_cases hle : c.encoding.length ≤ u.length
    · obtain ⟨u', rfl⟩ := List.prefix_of_prefix_length_le hfirst hwhole hle
      rw [List.append_assoc, List.append_cancel_left_eq] at h
      obtain ⟨j, hj, tail, hreads, hframe⟩ := ih (fun c' hc' => hpayload c' (List.mem_cons_of_mem _ hc')) h
      exact ⟨j + 1, Nat.succ_lt_succ hj, tail, .item (CborCall.frame_encoding hsmall u') hreads, hframe⟩
    · refine ⟨0, Nat.succ_pos _, u, .done u, ?_⟩
      obtain ⟨v', hc⟩ := List.prefix_of_prefix_length_le hwhole hfirst (by omega)
      by_contra hall
      have hframe := frame_more hall v'
      have hcall := CborCall.frame_encoding hsmall []
      rw [List.append_nil, ← hc, hframe] at hcall
      -- an item of a part of the bytes would leave the others
      cases hf : frame u with
      | item event rest =>
        rw [hf] at hcall
        injection hcall with _ hnil
        rw [← hc, (List.append_eq_nil_iff.mp hnil).2, List.append_nil] at hle
        exact hle (Nat.le_refl _)
      | _ =>
        rw [hf] at hcall
        cases hcall

theorem calls_small {m : Wrapper} {calls : List CborCall} (h : m.calls? = some calls) (hlength : m.bytes.length < 2 ^ 31) :
    ∀ c ∈ calls, c.payload.length < 2 ^ 31 := by
  intro c hc
  have hle := payload_le hc
  rw [← bytes_eq_encodings h] at hle
  omega

theorem feed_understood {m : Wrapper} {calls : List CborCall} (h : m.calls? = some calls)
    (hlength : m.bytes.length < 2 ^ 31) (hm : m.Understood) {p : ObjectParser} (hs : p.state = .init) :
    ∃ p', feed ObjectParser.on p (calls.map CborCall.event) = some (p', [.message m]) := by
  obtain ⟨events, hencodes, hfeeds⟩ := hm
  have hitems := (hencodes []).1
  have hreads := (reads_encodings (calls_small h hlength) []).items_eq
  rw [← bytes_eq_encodings h, hitems, items_incomplete (l := []) rfl, List.append_nil, List.append_nil] at hreads
  obtain ⟨p', hfeed, -⟩ := hfeeds p hs
  rw [hreads] at hfeed
  exact ⟨p', hfeed⟩

/-- The calls for a message are its callback; of a row that is empty there
are none. -/
theorem feed_calls {m : Wrapper} {calls : List CborCall} (h : m.calls? = some calls) (hlength : m.bytes.length < 2 ^ 31)
    {p : ObjectParser} (hs : p.state = .init) :
    ∃ p' told, feed ObjectParser.on p (calls.map CborCall.event) = some (p', told) ∧ ∀ c ∈ told, c = .message m := by
  have hunderstood : m.Understood →
      ∃ p' told, feed ObjectParser.on p (calls.map CborCall.event) = some (p', told) ∧ ∀ c ∈ told, c = .message m := by
    intro hm
    obtain ⟨p', hfeed⟩ := feed_understood h hlength hm hs
    exact ⟨p', _, hfeed, fun c hc => List.mem_singleton.mp hc⟩
  obtain ⟨state, currentKey, elements, currentObject, currentRequestId⟩ := p
  cases hs
  cases m with
  | request wrapper =>
    obtain ⟨id, request⟩ := wrapper
    cases request with
    | get r => cases h
    | add r =>
      by_cases hrow : r.row = ∅
      · obtain ⟨database, table, row⟩ := r
        subst hrow
        cases h
        have hevents : (([.tag tagRequestWrapper, .array 2, .uint id] : List CborCall) ++
            RequestAdd.calls { database, table }).map CborCall.event = addEvents id database table 0 := by
          simp [RequestAdd.calls, addEvents, CborCall.event]
        exact ⟨_, _, (congrArg (feed ObjectParser.on _) hevents).trans rfl, fun c hc => absurd hc List.not_mem_nil⟩
      · exact hunderstood (understood_add id hrow hlength)
    | addContinue r => exact hunderstood ((Wrapper.Faithful.addContinue id r).understood hlength)
  | response wrapper =>
    obtain ⟨id, response⟩ := wrapper
    cases response with
    | getOk r =>
      by_cases hrow : r.values = ∅
      · obtain ⟨values⟩ := r
        subst hrow
        cases h
        have hevents : (([.tag tagResponseWrapper, .array 2, .uint id] : List CborCall) ++
            Response.calls (.getOk {})).map CborCall.event = getOkEvents id 0 := by
          simp [Response.calls, getOkEvents, CborCall.event]
        exact ⟨_, _, (congrArg (feed ObjectParser.on _) hevents).trans rfl, fun c hc => absurd hc List.not_mem_nil⟩
      · exact hunderstood (understood_getOk id hrow hlength)
    | getEmpty => exact hunderstood ((Wrapper.Faithful.getEmpty id).understood hlength)
    | addOk => exact hunderstood ((Wrapper.Faithful.addOk id).understood hlength)
    | addTraverse r => exact hunderstood ((Wrapper.Faithful.addTraverse id r).understood hlength)

theorem Wrapper.Shape.columns_le {m : Wrapper} {calls : List CborCall} (h : m.Shape calls) : m.columns ≤ calls.length := by
  cases h with
  | plain hcolumns _ => omega
  | row es _ _ hcalls hlength =>
    rw [← List.length_map CborCall.event, hcalls, List.length_append, entryEvents_length]
    omega

/-- **Nothing is made of a message before its last item.** -/
theorem feed_part {m : Wrapper} {calls : List CborCall} (h : m.calls? = some calls) (hlength : m.bytes.length < 2 ^ 31)
    {j : Nat} (hj : j < calls.length) {p : ObjectParser} (hs : p.state = .init) :
    ∃ p', feed ObjectParser.on p ((calls.take j).map CborCall.event) = some (p', []) := by
  obtain ⟨_, told, hfeed, htold⟩ := feed_calls h hlength hs
  rw [← List.take_append_drop j calls, List.map_append] at hfeed
  obtain ⟨p', first, rest, hfirst, -, rfl⟩ := feed_split hfeed
  have hfew : calls.length < 2 ^ 31 := by
    rw [bytes_eq_encodings h] at hlength
    exact Nat.lt_of_le_of_lt (length_le_encodings calls) hlength
  have hcolumns := (Wrapper.shape h).columns_le
  have hnone : messages ((calls.map CborCall.event).take j) = [] := by
    rcases (Wrapper.shape h).cut hj (by omega) with ⟨hnone, -⟩ | ⟨-, -, hless, -⟩
    · exact hnone
    · rw [Wrapper.shown, Nat.mod_eq_of_lt (by omega)] at hless
      exact absurd hless (Nat.lt_irrefl _)
  obtain ⟨_, _, hfeed, hkept⟩ := ObjectParser.feeds hs ((calls.take j).map CborCall.event)
  rw [hfirst] at hfeed
  cases hfeed
  rw [List.map_take, hnone] at hkept
  cases first with
  | nil => exact ⟨p', hfirst⟩
  | cons c first =>
    obtain rfl := htold c List.mem_cons_self
    cases hkept

theorem run_part {m : Wrapper} (hm : ∀ id r, m ≠ .request ⟨id, .get r⟩) (hlength : m.bytes.length < 2 ^ 31)
    {u v : List UInt8} (h : m.bytes = u ++ v) (hv : v ≠ []) (p : ObjectParser) :
    ∃ fuel q, ObjectParser.run record fuel p u [] = some (.ok (.returned, q, [])) := by
  obtain ⟨calls, hcalls⟩ : ∃ calls, m.calls? = some calls := by
    unfold Wrapper.calls?
    split
    · exact absurd rfl (hm _ _)
    all_goals exact ⟨_, rfl⟩
  have hu : u.length < 2 ^ 31 := by
    rw [h, List.length_append] at hlength
    omega
  obtain ⟨j, hj, tail, hreads, hframe⟩ := reads_part (calls_small hcalls hlength) (bytes_eq_encodings hcalls ▸ h) hv
  obtain ⟨q, hfeed⟩ := feed_part hcalls hlength hj (p := { p with state := .init }) rfl
  rw [← visible_eq hu] at hreads
  have hend : (frame tail).Ends .returned := by
    rw [hframe]
    exact .incomplete
  obtain ⟨fuel, hrun⟩ := ObjectParser.run_ends hreads hend hfeed
  exact ⟨fuel, q, hrun⟩

/-- **Truncation never invents a message.** Of the first bytes of an input a
parser makes the first of the calls it makes of all of it, wherever they are
cut, if the reader sees no less of all of it; and of a part of a message it
makes none. -/
theorem truncation_invents_nothing :
    (∀ s t : List UInt8, (visible s).length ≤ (visible (s ++ t)).length →
      ∀ (p p' q : ObjectParser) (fuel : Nat) (e : CborEnd) (calls : List ObjectCall),
        ObjectParser.run record fuel p (s ++ t) [] = some (.ok (e, q, calls)) →
        ∃ fuel' e' q' calls', ObjectParser.run record fuel' p' s [] = some (.ok (e', q', calls')) ∧
          e' ≠ .outOfBounds ∧ calls' <+: calls) ∧
    ∀ m : Wrapper, (∀ id r, m ≠ .request ⟨id, .get r⟩) →
      ∀ capacity : Int, m.bytes.length ≤ capacity → capacity < 2 ^ 31 →
        ∀ u v, (m.serialize (.new (.new capacity))).output.data = u ++ v → v ≠ [] →
          ∀ p, ∃ fuel q, ObjectParser.run record fuel p u [] = some (.ok (.returned, q, [])) := by
  constructor
  · intro s t hseen p p' q fuel e calls hrun
    obtain ⟨more, hmore⟩ := visible_part hseen
    exact ObjectParser.calls_of_part hmore hrun p'
  · intro m hm capacity hroom hcapacity u v hdata hv p
    rw [serialize_data hroom] at hdata
    exact run_part hm (by omega) hdata hv p

/-- A byte of two, and a response without its last byte. -/
theorem truncation_invents_nothing_byte :
    (∃ fuel' e' q' calls', ObjectParser.run record fuel' .new [0] [] = some (.ok (e', q', calls')) ∧
      e' ≠ .outOfBounds ∧ calls' <+: [.error "unknown integer", .error "unknown integer"]) ∧
    ∃ fuel q, ObjectParser.run record fuel .new [0xD9, 0x07, 0xD0, 0x82, 0x01, 0xD9, 0x08, 0x98] [] =
      some (.ok (.returned, q, [])) :=
  ⟨truncation_invents_nothing.1 [0] [0] (by decide) .new .new .new 10 .returned _ rfl,
    truncation_invents_nothing.2 (.response ⟨1, .addOk⟩) nofun 100 (by decide) (by decide) _ [0xA0] (by decide)
      (by decide) .new⟩

/-! ## Inputs of which less is seen than of a part of them -/

/-- How much is seen is in the length alone. -/
theorem visible_length (data : List UInt8) : (visible data).length = ((data.length : Int).bmod (2 ^ 32)).toNat := by
  have hle := size_le data
  rw [visible, List.length_take, Nat.min_eq_left (by omega)]
  simp only [CborInput.new]

theorem reads_zeros (k : Nat) : Reads (List.replicate k 0) (List.replicate k (.integer 0)) [] := by
  induction k with
  | zero => exact .done []
  | succ k ih =>
    have hframe : frame (List.replicate (k + 1) 0) = .item (some (.integer 0)) (List.replicate k 0) := rfl
    exact .item hframe ih

theorem feed_zeros {p : ObjectParser} (hs : p.state = .init) (k : Nat) :
    feed ObjectParser.on p (List.replicate k (.integer 0)) = some (p, List.replicate k (.error "unknown integer")) := by
  have hon : p.on (.integer 0) = some (p, some (.error "unknown integer")) := by
    simp only [ObjectParser.on, ObjectParser.onInteger, hs]
    rfl
  induction k with
  | zero => rfl
  | succ k ih => exact feed_cons hon ih

theorem run_zeros (n : Nat) (p : ObjectParser) :
    ∃ fuel q, ObjectParser.run record fuel p (List.replicate n 0) [] =
      some (.ok (.returned, q, List.replicate (visible (List.replicate n 0)).length (.error "unknown integer"))) := by
  obtain ⟨k, hk⟩ : ∃ k, visible (List.replicate n 0) = List.replicate k 0 := ⟨_, List.take_replicate ..⟩
  have hreads := reads_zeros k
  rw [← hk] at hreads
  obtain ⟨fuel, hrun⟩ := ObjectParser.run_ends (p := p) hreads .incomplete (feed_zeros rfl k)
  rw [hk, List.length_replicate]
  exact ⟨fuel, _, hrun⟩

/-- **Where less is seen of all of an input than of a part of it**, the calls
for the part may be more: so they are for the zeros of these lengths. -/
theorem fewer_calls_of_whole {s t : List UInt8} (h : (visible (s ++ t)).length < (visible s).length) :
    ∃ s' t' : List UInt8, s'.length = s.length ∧ t'.length = t.length ∧ ∀ p, ∃ fuel q calls fuel' q' calls',
      ObjectParser.run record fuel p (s' ++ t') [] = some (.ok (.returned, q, calls)) ∧
      ObjectParser.run record fuel' p s' [] = some (.ok (.returned, q', calls')) ∧ ¬ calls' <+: calls := by
  refine ⟨List.replicate s.length 0, List.replicate t.length 0, List.length_replicate, List.length_replicate,
    fun p => ?_⟩
  rw [← List.replicate_add]
  obtain ⟨fuel, q, hrun⟩ := run_zeros (s.length + t.length) p
  obtain ⟨fuel', q', hrun'⟩ := run_zeros s.length p
  refine ⟨fuel, q, _, fuel', q', _, hrun, hrun', fun hle => ?_⟩
  have hlength := hle.length_le
  rw [List.length_replicate, List.length_replicate, visible_length, visible_length, List.length_replicate,
    List.length_replicate] at hlength
  rw [visible_length, visible_length, List.length_append] at h
  omega

/-- 2^31 zeros, of which nothing is seen, after the first of which one call is
made. -/
theorem whole_makes_fewer_calls :
    ∃ fuel q fuel' q' calls',
      ObjectParser.run record fuel .new ([0] ++ List.replicate 2147483647 0) [] = some (.ok (.returned, q, [])) ∧
      ObjectParser.run record fuel' .new [0] [] = some (.ok (.returned, q', calls')) ∧ ¬ calls' <+: [] := by
  have hwhole : [0] ++ List.replicate 2147483647 0 = List.replicate 2147483648 (0 : UInt8) :=
    (List.replicate_succ (n := 2147483647)).symm
  have hnone : (visible (List.replicate 2147483648 0)).length = 0 := by
    rw [visible_length, List.length_replicate]
    norm_num [Int.bmod]
  obtain ⟨fuel, q, hrun⟩ := run_zeros 2147483648 .new
  obtain ⟨fuel', q', hrun'⟩ := run_zeros 1 .new
  rw [hnone, List.replicate_zero] at hrun
  rw [hwhole]
  refine ⟨fuel, q, fuel', q', _, hrun, hrun', fun hle => ?_⟩
  have hlength := hle.length_le
  rw [List.length_replicate, visible_length] at hlength
  norm_num [Int.bmod] at hlength

end Zql
