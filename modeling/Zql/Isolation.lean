/-
Inserts of different clients. Traversals are kept under bare request ids,
which clients choose without knowing of one another: a `RequestAdd` stores
its traversal over whatever is there, and a message that ends a traversal
removes the one stored under the message's own id, whoever's that is.

While no ids meet in these ways, every insert in progress keeps its
traversal as its own client's last message left it
(`inserts_undisturbed`).
-/
import Zql.Service

namespace Zql

open Transition

/-- The clients as seen from outside. An insert goes by its client and the
id of its `RequestAdd`. -/
structure Clients where
  /-- The messages sent, by client and id. -/
  sent : List (Nat × UInt32)
  /-- The inserts that have been shown a node. -/
  started : List (Nat × UInt32)
  /-- Those of them not acknowledged yet. -/
  progress : List (Nat × UInt32)
  /-- What was stored under an insert's id after its own last message. -/
  left : Nat × UInt32 → Option (Option BTreeTraverse)
  /-- The exchanges that acknowledged an insert at last. -/
  completed : List Exchange

namespace Clients

def init : Clients := ⟨[], [], [], fun _ => none, []⟩

def observe (client : Nat) (c : Clients) (e : Exchange) : Clients :=
  let key := (client, e.message.insert)
  let sent := c.sent ++ [(client, e.message.id)]
  let left := Function.update c.left key e.after.holder.traverses[e.message.insert]?
  match e.message, e.response with
  | .add _ _, .addTraverse _ =>
    { c with sent, started := c.started ++ [key], progress := c.progress ++ [key], left }
  | .add _ _, _ => { c with sent }
  | .addContinue _ _, .addTraverse _ => { c with sent, left }
  | .addContinue _ _, _ =>
    { c with sent, left, progress := c.progress.filter (· ≠ key), completed := c.completed ++ [e] }

/-- A message of a client, handled. -/
def serve (s : Server × Clients) (a : Nat × Message × Env) : Option (Server × Clients) :=
  served (observe a.1) s a.2

/-- A client's message ids are its own choice, each used once by it, and it
continues only inserts it has started. -/
def Own (s : Server × Clients) (a : Nat × Message × Env) : Prop :=
  (a.1, a.2.1.id) ∉ s.2.sent ∧
    ∀ id request, a.2.1 = .addContinue id request → (a.1, request.initRequestId) ∈ s.2.started

/-- The exchange removed no traversal, or the one of its own insert. -/
def RemovesOwn (e : Exchange) : Prop :=
  ∀ k t, e.before.holder.traverses[k]? = some (some t) → (∀ u, e.after.holder.traverses[k]? ≠ some (some u)) →
    k = e.message.insert

/-- Every insert in progress has its traversal as its own last message left
it, and what an acknowledgement removed was the insert's own. -/
structure Undisturbed (s : Server) (c : Clients) : Prop where
  progress : ∀ key ∈ c.progress, ∃ t, c.left key = some (some t) ∧ s.holder.traverses[key.2]? = some (some t)
  completed : ∀ e ∈ c.completed, RemovesOwn e

/-- A `RequestAdd` that starts a traversal has not the id of an insert in
progress, a step is not asked under an id where another client's insert is
in progress, and the message that ends a traversal has not the id of any
that is stored. -/
def Clear (s : Server × Clients) (a : Nat × Message × Env) : Prop :=
  match a.2.1 with
  | .add id request => ¬ s.1.Adds (.add id request) → ∀ client, (client, id) ∉ s.2.progress
  | .addContinue id request =>
    (direction request.compareResult ≠ none →
      ∀ client, client ≠ a.1 → (client, request.initRequestId) ∉ s.2.progress) ∧
    (s.1.Adds (.addContinue id request) → ∀ t, s.1.holder.traverses[id]? ≠ some (some t))

/-! ## The invariant -/

structure Separate (s : Server × Clients) : Prop where
  undisturbed : Undisturbed s.1 s.2
  distinct : ∀ key ∈ s.2.progress, ∀ key' ∈ s.2.progress, key.2 = key'.2 → key = key'

theorem Separate.init : Separate (Server.init, init) where
  undisturbed := ⟨nofun, nofun⟩
  distinct := nofun

theorem Separate.quiet {s s' : Server} {c : Clients} (hs : Separate (s, c)) (key : Nat × UInt32)
    (hh : s'.holder = s.holder) : Separate (s', { c with sent := c.sent ++ [key] }) where
  undisturbed := ⟨by rw [hh]; exact hs.undisturbed.progress, hs.undisturbed.completed⟩
  distinct := hs.distinct

theorem Separate.added {env : Env} {s s' : Server} {c : Clients} {client : Nat} {id : UInt32} {request : RequestAdd}
    {response : Response} (hs : Separate (s, c)) (hclear : Clear (s, c) (client, .add id request, env))
    (h : Added env s id request s' response) :
    Separate (s', c.observe client ⟨env, .add id request, s, response, s'⟩) := by
  cases h with
  | plain _ => exact hs.quiet (client, id) rfl
  | root _ _ => exact hs.quiet (client, id) rfl
  | @started opeField opeValue tree node hope htree hnode =>
    have hfree : ∀ client, (client, id) ∉ c.progress := by
      refine hclear fun hadds => ?_
      rcases hadds with hnone | hnone
      · rw [hope] at hnone
        cases hnone
      · rw [htree] at hnone
        cases hnone
    have hother : ∀ key ∈ c.progress, key.2 ≠ id := fun key hk he => hfree key.1 (he ▸ hk)
    refine ⟨⟨fun key hk => ?_, hs.undisturbed.completed⟩, fun key hk key' hk' he => ?_⟩
    · rcases List.mem_append.mp hk with hk | hk
      · obtain ⟨t, hleft, ht⟩ := hs.undisturbed.progress key hk
        have hne := hother key hk
        refine ⟨t, ?_, by rw [BTreeTraverseHolder.update_of_ne hne]; exact ht⟩
        exact (Function.update_of_ne (fun he => hne (congrArg Prod.snd he)) ..).trans hleft
      · obtain rfl := List.mem_singleton.mp hk
        refine ⟨_, ?_, BTreeTraverseHolder.update_self ..⟩
        exact (Function.update_self ..).trans (BTreeTraverseHolder.update_self ..)
    · rcases List.mem_append.mp hk with hk | hk <;> rcases List.mem_append.mp hk' with hk' | hk'
      · exact hs.distinct key hk key' hk' he
      · obtain rfl := List.mem_singleton.mp hk'
        exact absurd he (hother key hk)
      · obtain rfl := List.mem_singleton.mp hk
        exact absurd he.symm (hother key' hk')
      · rw [List.mem_singleton.mp hk, List.mem_singleton.mp hk']

theorem Separate.continued {env : Env} {s s' : Server} {c : Clients} {client : Nat} {id : UInt32}
    {request : RequestAddContinue} {response : Response} (hs : Separate (s, c))
    (hclear : Clear (s, c) (client, .addContinue id request, env))
    (h : Continued env s id request s' response) :
    Separate (s', c.observe client ⟨env, .addContinue id request, s, response, s'⟩) := by
  have hkey : ∀ key ∈ c.progress, direction request.compareResult ≠ none → key ≠ (client, request.initRequestId) →
      key.2 ≠ request.initRequestId := by
    intro key hk hd hne he
    by_cases hc : key.1 = client
    · exact hne (Prod.ext hc he)
    · exact hclear.1 hd key.1 hc (he ▸ hk)
  cases h with
  | equal hd =>
    refine ⟨⟨fun key hk => ?_, fun e he => ?_⟩, fun key hk key' hk' => ?_⟩
    · obtain ⟨hk, hne⟩ := List.mem_filter.mp hk
      obtain ⟨t, hleft, ht⟩ := hs.undisturbed.progress key hk
      refine ⟨t, ?_, (BTreeTraverseHolder.getTraverse_stored ..).mpr ht⟩
      exact (Function.update_of_ne (of_decide_eq_true hne) ..).trans hleft
    · rcases List.mem_append.mp he with he | he
      · exact hs.undisturbed.completed e he
      · obtain rfl := List.mem_singleton.mp he
        exact fun k t ht hgone => absurd ((BTreeTraverseHolder.getTraverse_stored ..).mpr ht) (hgone t)
    · exact hs.distinct key (List.mem_of_mem_filter hk) key' (List.mem_of_mem_filter hk')
  | @moved side t t' heap node hd ht hgo hnode =>
    refine ⟨⟨fun key hk => ?_, hs.undisturbed.completed⟩, hs.distinct⟩
    by_cases hne : key = (client, request.initRequestId)
    · subst hne
      exact ⟨t', (Function.update_self ..).trans (BTreeTraverseHolder.update_self ..),
        BTreeTraverseHolder.update_self ..⟩
    · obtain ⟨u, hleft, hu⟩ := hs.undisturbed.progress key hk
      refine ⟨u, (Function.update_of_ne hne ..).trans hleft, ?_⟩
      rw [BTreeTraverseHolder.update_of_ne (hkey key hk (by rw [hd]; nofun) hne)]
      exact hu
  | @ended side t t' heap requestAdd row hd ht hgo hr hrow =>
    obtain ⟨node, hnode, hchild, -⟩ := BTreeTraverse.goTo_ended hgo
    have hempty := hclear.2 ⟨side, t, node, hd, ht, hnode, hchild⟩
    refine ⟨⟨fun key hk => ?_, fun e he => ?_⟩, fun key hk key' hk' => ?_⟩
    · obtain ⟨hk, hne⟩ := List.mem_filter.mp hk
      have hne := of_decide_eq_true hne
      obtain ⟨u, hleft, hu⟩ := hs.undisturbed.progress key hk
      refine ⟨u, (Function.update_of_ne hne ..).trans hleft, ?_⟩
      have hnot : key.2 ≠ id := fun he => hempty u (he ▸ hu)
      rw [BTreeTraverseHolder.removeTraverse_of_ne hnot,
        BTreeTraverseHolder.update_of_ne (hkey key hk (by rw [hd]; nofun) hne)]
      exact hu
    · rcases List.mem_append.mp he with he | he
      · exact hs.undisturbed.completed e he
      · -- nothing is stored under the message's id, and nothing else goes
        obtain rfl := List.mem_singleton.mp he
        intro k u hu hgone
        by_contra hk
        have hk : k ≠ request.initRequestId := hk
        have hnot : k ≠ id := fun he => hempty u (he ▸ hu)
        refine hgone u ?_
        rw [BTreeTraverseHolder.removeTraverse_of_ne hnot, BTreeTraverseHolder.update_of_ne hk]
        exact hu
    · exact hs.distinct key (List.mem_of_mem_filter hk) key' (List.mem_of_mem_filter hk')

/-- **Inserts of different clients do not disturb each other** as long as
their ids do not meet. -/
theorem inserts_undisturbed {s : Server × Clients} {as : List (Nat × Message × Env)}
    (h : Runs (Guarded (ofPartial serve) Clear) (Server.init, init) as s) : Undisturbed s.1 s.2 := by
  refine (h.invariant (fun s a s' hs hstep => ?_) Separate.init).undisturbed
  refine served_keeps (fun s m => Clear s (a.1, m)) ?_ ?_ s a.2 s' hs hstep
  · intro env s c id request s' response hs hclear hh
    exact hs.added hclear hh
  · intro env s c id request s' response hs hclear hh
    exact hs.continued hclear hh

/-- One client's insert completes while another's is in progress. -/
theorem inserts_undisturbed_pair :
    ∃ s, Runs (Guarded (ofPartial serve) Clear) (Server.init, init)
        [(0, .add 1 (.ofValue [0x35]), .calm), (0, .add 2 (.ofValue [0x33]), .calm),
          (1, .add 3 (.ofValue [0x37]), .calm), (0, .addContinue 4 ⟨2, -1⟩, .calm)] s ∧
      s.2.progress = [(1, 3)] ∧ s.2.completed.length = 1 ∧ Undisturbed s.1 s.2 := by
  have hrun : Runs (Guarded (ofPartial serve) Clear) (Server.init, init)
      [(0, .add 1 (.ofValue [0x35]), .calm), (0, .add 2 (.ofValue [0x33]), .calm),
        (1, .add 3 (.ofValue [0x37]), .calm), (0, .addContinue 4 ⟨2, -1⟩, .calm)] _ :=
    .cons ⟨fun _ _ => List.not_mem_nil, rfl⟩
      (.cons ⟨fun _ _ => List.not_mem_nil, rfl⟩
        (.cons ⟨fun _ client hm => (by cases List.mem_singleton.mp hm), rfl⟩
          (.cons ⟨⟨fun _ client hne hm => (by
              rcases List.mem_cons.mp hm with he | he
              · cases he
                exact hne rfl
              · cases List.mem_singleton.mp he), fun _ t ht => (by cases ht)⟩, rfl⟩ .nil)))
  exact ⟨_, hrun, by decide, rfl, inserts_undisturbed hrun⟩

/-- The message that ends one client's insert has the id of another's. -/
theorem inserts_disturbed :
    ∃ s, Runs (Guarded (ofPartial serve) Own) (Server.init, init)
        [(0, .add 1 (.ofValue [0x35]), .calm), (0, .add 2 (.ofValue [0x33]), .calm),
          (1, .add 3 (.ofValue [0x37]), .calm), (1, .addContinue 2 ⟨3, 1⟩, .calm)] s ∧
      (0, 2) ∈ s.2.progress ∧ s.1.holder.traverses[(2 : UInt32)]? = none ∧ ¬ Undisturbed s.1 s.2 := by
  have hrun : Runs (Guarded (ofPartial serve) Own) (Server.init, init)
      [(0, .add 1 (.ofValue [0x35]), .calm), (0, .add 2 (.ofValue [0x33]), .calm),
        (1, .add 3 (.ofValue [0x37]), .calm), (1, .addContinue 2 ⟨3, 1⟩, .calm)] _ :=
    .cons ⟨⟨List.not_mem_nil, nofun⟩, rfl⟩
      (.cons ⟨⟨by decide, nofun⟩, rfl⟩
        (.cons ⟨⟨by decide, nofun⟩, rfl⟩
          (.cons ⟨⟨by decide, fun _ _ he => by cases he; exact .tail _ (.head _)⟩, rfl⟩ .nil)))
  have hmem : ((0, 2) : Nat × UInt32) ∈ [((0, 2) : Nat × UInt32)] := List.mem_singleton.mpr rfl
  refine ⟨_, hrun, hmem, rfl, fun h => ?_⟩
  obtain ⟨t, -, ht⟩ := h.progress (0, 2) hmem
  cases ht

end Clients

end Zql
