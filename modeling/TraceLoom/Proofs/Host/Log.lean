import TraceLoom.Proofs.Host.Scene

/-!
Logs: moves together with the replies that they had.  A program sees nothing of an adapter but
replies, so a log says all about how the two of them got along.
-/

namespace TraceLoom

/-- Moves in the order in which they were made, with their replies. -/
abbrev Log := List (Move × Reply)

namespace Scene

variable {s s' t t' : Scene} {log : Log}

/-- The moves of a log have these replies and lead to the other scene. -/
def Leads : Scene → Log → Scene → Prop
  | s, [], t => t = s
  | s, (move, reply) :: log, t =>
      (s.perform move).1 = reply ∧ (s.perform move).2.Leads log t

theorem leads_append {log' : Log} :
    s.Leads (log ++ log') s' ↔ ∃ t, s.Leads log t ∧ t.Leads log' s' := by
  induction log generalizing s with
  | nil => simp [Leads]
  | cons entry log ih => simp [Leads, ih, and_assoc]

theorem leads_singleton {move : Move} {reply : Reply} :
    s.Leads [(move, reply)] t ↔ (s.perform move).1 = reply ∧ (s.perform move).2 = t := by
  simp [Leads, eq_comm]

theorem leads_perform (s : Scene) (move : Move) :
    s.Leads [(move, (s.perform move).1)] (s.perform move).2 :=
  ⟨rfl, rfl⟩

theorem Leads.unique (h : s.Leads log t) (h' : s.Leads log t') : t' = t := by
  induction log generalizing s with
  | nil => exact Eq.trans h' (Eq.symm h)
  | cons entry log ih => exact ih h.2 h'.2

/-! ## Numbers of callbacks and conversations -/

/-- How many callbacks a move adds to those that are known. -/
def added : Move → Reply → Nat
  | .register _, .ok _ => 1
  | _, _ => 0

/-- How many conversations a move opens. -/
def begun : Move → Nat
  | .openConversation => 1
  | _ => 0

/-- A move only adds to the callbacks and conversations that are known by number. -/
theorem numbers_perform (s : Scene) (move : Move) :
    (∃ callbacks, (s.perform move).2.callbacks = s.callbacks ++ callbacks ∧
      callbacks.length = added move (s.perform move).1) ∧
    ∃ conversations, (s.perform move).2.conversations = s.conversations ++ conversations ∧
      conversations.length = begun move := by
  have hsame : (∃ callbacks, s.callbacks = s.callbacks ++ callbacks ∧ callbacks.length = 0) ∧
      ∃ conversations, s.conversations = s.conversations ++ conversations ∧
        conversations.length = 0 := ⟨⟨[], by simp⟩, ⟨[], by simp⟩⟩
  cases move with
  | register event =>
      simp only [perform]
      rcases s.adapter.run (Adapter.register event) with ⟨_ | registration, a⟩
      · exact hsame
      · exact ⟨⟨[registration], rfl, rfl⟩, hsame.2⟩
  | openConversation => exact ⟨hsame.1, ⟨[_], rfl, rfl⟩⟩
  | discard i =>
      simp only [perform]
      cases s.callbacks[i]? <;> exact hsame
  | enter i conversation =>
      simp only [perform]
      cases s.callbacks[i]? with
      | none => exact hsame
      | some registration =>
          dsimp only
          rcases s.adapter.run (Adapter.enter registration _) with ⟨_ | _, _⟩ <;> exact hsame
  | leave completed =>
      simp only [perform]
      cases s.visits <;> exact hsame
  | takeResponse c =>
      simp only [perform]
      cases s.conversations[c]? <;> exact hsame
  | _ => exact hsame

theorem Leads.callbacks_isPrefix (h : s.Leads log t) : s.callbacks <+: t.callbacks := by
  induction log generalizing s with
  | nil =>
      obtain rfl : t = s := h
      exact List.prefix_rfl
  | cons entry log ih =>
      obtain ⟨callbacks, hcallbacks, -⟩ := (numbers_perform s entry.1).1
      exact (List.prefix_append ..).trans (hcallbacks ▸ ih h.2)

/-- As many callbacks and conversations are known by number. -/
structure Level (s t : Scene) : Prop where
  callbacks : t.callbacks.length = s.callbacks.length
  conversations : t.conversations.length = s.conversations.length

@[refl] theorem Level.refl (s : Scene) : s.Level s :=
  ⟨rfl, rfl⟩

/-- Moves with the same replies keep scenes level. -/
theorem Level.leads (h : s.Level t) (hs : s.Leads log s') (ht : t.Leads log t') : s'.Level t' := by
  induction log generalizing s t with
  | nil =>
      obtain rfl : s' = s := hs
      obtain rfl : t' = t := ht
      exact h
  | cons entry log ih =>
      obtain ⟨move, reply⟩ := entry
      obtain ⟨rfl, hs⟩ := hs
      obtain ⟨hreply, ht⟩ := ht
      refine ih ⟨?_, ?_⟩ hs ht
      · obtain ⟨⟨_, hcallbacks, hlength⟩, -⟩ := numbers_perform s move
        obtain ⟨⟨_, hcallbacks', hlength'⟩, -⟩ := numbers_perform t move
        rw [hcallbacks, hcallbacks', List.length_append, List.length_append, hlength, hlength',
          hreply, h.callbacks]
      · obtain ⟨-, _, hconversations, hlength⟩ := numbers_perform s move
        obtain ⟨-, _, hconversations', hlength'⟩ := numbers_perform t move
        rw [hconversations, hconversations', List.length_append, List.length_append, hlength,
          hlength', h.conversations]

/-! ## Callbacks by number -/

/-- The callback with a number; numbers that stand for nothing do not matter. -/
def callback (s : Scene) (i : Nat) : Registration :=
  s.callbacks[i]?.getD ⟨.immediate, none, none⟩

theorem getElem?_callbacks {i : Nat} (h : i < s.callbacks.length) :
    s.callbacks[i]? = some (s.callback i) := by
  simp [callback, h]

theorem callback_eq_of_isPrefix (h : s.callbacks <+: t.callbacks) {i : Nat}
    (hi : i < s.callbacks.length) : t.callback i = s.callback i := by
  obtain ⟨more, hmore⟩ := h
  rw [callback, callback, ← hmore, List.getElem?_append_left hi]

end Scene

end TraceLoom
