/-
One message on its way. It is serialized into an output of fixed capacity, and
what does not fit there is dropped; the receiver is called for the message as
it was, or for nothing (`whole_or_nothing`). What a listener makes of the bytes
is what it makes of the messages they deliver, one after the other
(`run_delivered`).
-/
import Zql.Lockstep
import Zql.Replies
import Zql.Requests

namespace Zql

open Looping Scanning

theorem intact_ne {m : Wrapper} {calls : List CborCall} (h : m.calls? = some calls) {capacity : Int}
    (hcapacity : 0 ≤ capacity) (hroom : capacity < m.bytes.length) : intact calls (.new (.new capacity)) ≠ calls := by
  intro hall
  have hfits := (le_length_intact_iff (Nat.le_refl _) (holds_new hcapacity)).mp (Nat.le_of_eq (congrArg _ hall.symm))
  rw [List.take_length, room_new, ← bytes_eq_encodings h] at hfits
  omega

theorem delivers_whole {m : Wrapper} {calls : List CborCall} (h : m.calls? = some calls) {capacity : Int}
    (hsmall : capacity < 2 ^ 30) (hroom : m.bytes.length ≤ capacity) :
    Delivers (m.serialize (.new (.new capacity))).output.data [m] ∨
      Delivers (m.serialize (.new (.new capacity))).output.data [] := by
  have hlength : m.bytes.length < 2 ^ 31 := by omega
  have hwhole : m.Faithful → _ := fun hf => Or.inl (b := Delivers (m.serialize (.new (.new capacity))).output.data [])
    ((hf.understood hlength).delivers hroom hlength)
  match m with
  | .request ⟨_, .get _⟩ => cases h
  | .request ⟨id, .add r⟩ =>
    by_cases hne : r.row = ∅
    · obtain ⟨database, table, row⟩ := r
      cases hne
      rw [serialize_data hroom, ← List.append_nil (Wrapper.bytes _)]
      exact .inr (delivers_empty_add id database table (by rwa [List.append_nil]) readable_nil)
    · exact .inl ((understood_add id hne hlength).delivers hroom hlength)
  | .request ⟨id, .addContinue r⟩ => exact hwhole (.addContinue id r)
  | .response ⟨id, .getOk r⟩ =>
    by_cases hne : r.values = ∅
    · obtain ⟨values⟩ := r
      cases hne
      rw [serialize_data hroom]
      exact .inr (delivers_empty_getOk id hlength)
    · exact hwhole (.getOk id r hne)
  | .response ⟨id, .getEmpty⟩ => exact hwhole (.getEmpty id)
  | .response ⟨id, .addOk⟩ => exact hwhole (.addOk id)
  | .response ⟨id, .addTraverse r⟩ => exact hwhole (.addTraverse id r)

/-- **A message is received as it was, or not at all**, whatever the capacity
of the output it was written to. -/
theorem whole_or_nothing {m : Wrapper} {calls : List CborCall} (h : m.calls? = some calls) {capacity : Int}
    (hcapacity : 0 ≤ capacity) (hsmall : capacity < 2 ^ 30) (hpayload : ∀ c ∈ calls, c.payload.length < 2 ^ 30)
    (hcolumns : m.columns < 2 ^ 32) :
    Delivers (m.serialize (.new (.new capacity))).output.data [m] ∨
      Delivers (m.serialize (.new (.new capacity))).output.data [] := by
  by_cases hroom : m.bytes.length ≤ capacity
  · exact delivers_whole h hsmall hroom
  · refine .inr (((overflow_never_misread_iff hcapacity).2 m calls h (fun c hc => ?_)
      (intact_ne h hcapacity (by omega))).mpr fun hmisread => ?_)
    · have := hpayload c hc
      omega
    · have hshown := hmisread.2.1
      rw [Wrapper.shown, Nat.mod_eq_of_lt hcolumns] at hshown
      exact Nat.lt_irrefl _ hshown

/-- A row in two fields, in an output with room for all of it and in one that
is a byte short. -/
theorem whole_or_nothing_fields :
    Delivers ((Wrapper.request ⟨1, .add (.ofValue [0x31])⟩).serialize (.new (.new 30))).output.data
        [.request ⟨1, .add (.ofValue [0x31])⟩] ∨
      Delivers ((Wrapper.request ⟨1, .add (.ofValue [0x31])⟩).serialize (.new (.new 30))).output.data [] :=
  whole_or_nothing rfl (by decide) (by decide) (by decide) (by decide)

/-! ## What a listener makes of a message -/

/-- **A run over bytes is the calls for what they deliver**, for a listener
errors are nothing to. -/
theorem run_delivered {L E : Type} (call : L → ObjectCall → Except E L) (hskip : ∀ x e, call x (.error e) = .ok x)
    {data : List UInt8} {ms : List Wrapper} (h : Delivers data ms) (x : L) :
    ∃ p, ∀ r, (∃ fuel, ObjectParser.run call fuel .new data x = some r) ↔
      r = match ms.foldlM (fun x m => call x (.message m)) x with
        | .ok x' => .ok (.returned, p, x')
        | .error e => .error (.listener e) := by
  obtain ⟨fuel, q, calls₀, hrun₀, -⟩ := h .new
  have hreadable : Readable (visible data) := readable_of_returns ⟨fuel, hrun₀⟩
  obtain ⟨p, calls, hfeed, hcalls⟩ := ObjectParser.feeds (p := .new) rfl (items (visible data))
  have hfold : calls.foldlM call x = ms.foldlM (fun x m => call x (.message m)) x := by
    rw [h.eq_messages, ← hcalls]
    refine foldlM_filterMap (fun x c hc => ?_) (fun x c m hc => ?_) calls x
    · match c with
      | .message _ => cases hc
      | .error e => exact hskip x e
    · match c with
      | .message _ =>
        cases hc
        rfl
      | .error _ => cases hc
  have hrun := run_readable (ObjectParser.listen call) hreadable (ObjectParser.new, x)
  rw [told, ObjectParser.foldlM_listen call hfeed, hfold] at hrun
  refine ⟨p, fun r => ⟨fun hr => ?_, fun hr => ?_⟩⟩
  · rw [Returns.unique hr hrun]
    cases ms.foldlM (fun x m => call x (.message m)) x <;> rfl
  · rw [hr]
    cases hx : ms.foldlM (fun x m => call x (.message m)) x <;> rw [hx] at hrun <;> exact hrun

theorem run_whole {L E : Type} {call : L → ObjectCall → Except E L} (hskip : ∀ x e, call x (.error e) = .ok x)
    {data : List UInt8} {m : Wrapper} (h : Delivers data [m]) {x x' : L} {fuel : Nat} {e : CborEnd} {p : ObjectParser}
    (hrun : ObjectParser.run call fuel .new data x = some (.ok (e, p, x'))) : call x (.message m) = .ok x' := by
  obtain ⟨p', hp'⟩ := run_delivered call hskip h x
  have hresult := (hp' _).mp ⟨fuel, hrun⟩
  rw [List.foldlM_cons] at hresult
  cases hx : call x (.message m) with
  | error f =>
    rw [hx] at hresult
    cases hresult
  | ok y =>
    rw [hx] at hresult
    cases hresult
    rfl

theorem run_lost {L E : Type} {call : L → ObjectCall → Except E L} (hskip : ∀ x e, call x (.error e) = .ok x)
    {data : List UInt8} (h : Delivers data []) {x x' : L} {fuel : Nat} {e : CborEnd} {p : ObjectParser}
    (hrun : ObjectParser.run call fuel .new data x = some (.ok (e, p, x'))) : x' = x := by
  obtain ⟨p', hp'⟩ := run_delivered call hskip h x
  cases (hp' _).mp ⟨fuel, hrun⟩
  rfl

/-- A run over a message that arrives comes to its end if the call for it
does, and over one that is lost in any case. -/
theorem run_returns {L E : Type} {call : L → ObjectCall → Except E L} (hskip : ∀ x e, call x (.error e) = .ok x)
    {data : List UInt8} {m : Wrapper} (h : Delivers data [m] ∨ Delivers data []) {x x' : L}
    (hx : call x (.message m) = .ok x') :
    ∃ fuel p x', ObjectParser.run call fuel .new data x = some (.ok (.returned, p, x')) := by
  rcases h with h | h
  · obtain ⟨p, hp⟩ := run_delivered call hskip h x
    obtain ⟨fuel, hrun⟩ := (hp (.ok (.returned, p, x'))).mpr (by rw [List.foldlM_cons, hx]; rfl)
    exact ⟨fuel, p, x', hrun⟩
  · obtain ⟨p, hp⟩ := run_delivered call hskip h x
    obtain ⟨fuel, hrun⟩ := (hp (.ok (.returned, p, x))).mpr rfl
    exact ⟨fuel, p, x, hrun⟩

end Zql
