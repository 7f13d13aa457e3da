import TraceLoom.Proofs.Execution.Pervasive
import TraceLoom.Proofs.Execution.Side
import TraceLoom.Proofs.Execution.Subscribing

/-!
Programs keep to terms.  Whatever a program does, it does by moves: it records what the gate lets
through, it enters only callbacks that wait or that it has just registered, and it leaves what it
enters.
-/

namespace TraceLoom

open Script Running

/-! ## Terms -/

namespace Gate

/-- A gate lets an operation of the recorder through. -/
def Lets (g : Gate) (op : Operation) : Prop :=
  ∃ callee name args s, g callee (.native (.trace name)) args s = .ok () ∧ name ≠ "getTrace" ∧
    Operation.ofArguments ⟨name, args, s⟩ = .ok op

/-- A gate lets a program see the trace. -/
def Shows (g : Gate) : Prop :=
  ∃ callee args s, g callee (.native (.trace "getTrace")) args s = .ok ()

end Gate

/-- The terms on which a program runs. -/
structure Terms where
  gate : Gate
  /-- The callbacks that may be entered. -/
  may : Nat → Prop
  /-- The listener that stays, if there is one. -/
  listener : Option (Nat × Value)
  config : Config

namespace Terms

/-- What a program may do.  Conversations are not its business. -/
def Allows (T : Terms) : Move → Prop
  | .operation op => T.gate.Lets op
  | .trace => T.gate.Shows
  | .enter i conversation => conversation = none ∧ T.may i
  | .openConversation | .takeResponse _ => False
  | _ => True

/-- A side that has kept to the terms so far. -/
structure Fits (T : Terms) (q : Side) (s : Scene) : Prop where
  waiting : ∀ i ∈ q.waiting, i < s.callbacks.length ∧ T.may i
  new : ∀ i, s.callbacks.length ≤ i → T.may i
  listener : ∀ l, T.listener = some l → q.listener = some l
  config : q.config = T.config

theorem Fits.mono {T : Terms} {q : Side} {s s' : Scene} (h : T.Fits q s)
    (hbegins : s.callbacks <+: s'.callbacks) : T.Fits q s' :=
  ⟨fun i hi => ⟨Nat.lt_of_lt_of_le (h.waiting i hi).1 hbegins.length_le, (h.waiting i hi).2⟩,
    fun i hi => h.new i (Nat.le_trans hbegins.length_le hi), h.listener, h.config⟩

end Terms

/-- A step that keeps to the terms, with its log. -/
structure Account {α : Type} (T : Terms) (q : Side) (s : Scene) (x : Scene → Running α) (log : Log)
    (s' : Scene) (r : Except EvalError α) (q' : Side) : Prop
    extends Tells T.gate q s x log s' r q' where
  fits : T.Fits q' s'
  allowed : ∀ entry ∈ log, T.Allows entry.1

/-- A step keeps to the terms, and what it comes to is as expected if it succeeds. -/
def Accounts {α : Type} (T : Terms) (q : Side) (s : Scene) (x : Scene → Running α)
    (Q : α → Side → Prop) : Prop :=
  ∃ log s' r q', Account T q s x log s' r q' ∧ ∀ a, r = .ok a → Q a q'

/-- A step that keeps to the terms whenever they were kept before. -/
def Keeps {α : Type} (T : Terms) (Q : α → Prop) (x : Running α) : Prop :=
  ∀ (q : Side) (s : Scene), T.Fits q s → Accounts T q s (fun _ => x) fun a _ => Q a

namespace Accounts

variable {α β : Type} {T : Terms} {q q' : Side} {s s' : Scene} {x : Scene → Running α}
  {Q : α → Side → Prop} {R : β → Side → Prop}

theorem silent {r : Except EvalError α} {p : Side} (hfits : T.Fits p s)
    (h : ∀ {t : Scene} {g : Gate}, s.Level t → T.gate.Serves r g →
      (q.under g t).run (x t) = (r, p.under g t))
    (hr : ∀ a, r = .ok a → Q a p) : Accounts T q s x Q :=
  ⟨[], s, r, p, ⟨.silent h, hfits, List.forall_mem_nil _⟩, hr⟩

theorem move {r : Except EvalError α} {p : Side} (m : Move) (hfits : T.Fits p s) (hm : T.Allows m)
    (h : ∀ {t : Scene} {g : Gate}, s.Level t → (t.perform m).1 = (s.perform m).1 →
      (q.under g t).run (x t) = (r, p.under g (t.perform m).2) ∧
        (t.perform m).2.visits = t.visits)
    (hok : r.isOk = true → (s.perform m).1.isOk = true) (hr : ∀ a, r = .ok a → Q a p) :
    Accounts T q s x Q :=
  ⟨_, _, r, p, ⟨.move m h hok, hfits.mono (s.leads_perform m).callbacks_isPrefix,
    List.forall_mem_singleton.mpr hm⟩, hr⟩

/-- Two steps after each other, where the second one may make use of callbacks that are known
before. -/
theorem bind {f : Scene → α → Running β} (h : Accounts T q s x Q)
    (hnext : ∀ {a : α} {q' : Side} {s' : Scene}, Q a q' → T.Fits q' s' →
      s.callbacks <+: s'.callbacks → Accounts T q' s' (fun t => f t a) R)
    (hstable : ∀ {t t' : Scene} (a : α), s.Level t → t.callbacks <+: t'.callbacks →
      f t a = f t' a) :
    Accounts T q s (fun t => x t >>= f t) R := by
  obtain ⟨log, s', r, q', haccount, hr⟩ := h
  cases r with
  | error e =>
      refine ⟨log, s', .error e, q', ⟨haccount.toTells.fails fun _ _ hrun => ?_, haccount.fits,
        haccount.allowed⟩, nofun⟩
      rw [Machine.run_bind, hrun]
  | ok a =>
      obtain ⟨log', s'', r', q'', haccount', hr'⟩ :=
        hnext (hr a rfl) haccount.fits haccount.leads.callbacks_isPrefix
      refine ⟨log ++ log', s'', r', q'', ⟨haccount.andThen haccount'.toTells
        fun hlevel hleads hrun => ?_, haccount'.fits,
        List.forall_mem_append.mpr ⟨haccount.allowed, haccount'.allowed⟩⟩, hr'⟩
      rw [Machine.run_bind_of_ok hrun, hstable a hlevel hleads.callbacks_isPrefix]

/-- A step that does on one side what another one does on another side. -/
theorem congr {y : Scene → Running α} (h : Accounts T q' s y Q)
    (hrun : ∀ (t : Scene) (g : Gate), s.Level t →
      (q.under g t).run (x t) = (q'.under g t).run (y t)) :
    Accounts T q s x Q := by
  obtain ⟨log, s', r, q'', haccount, hr⟩ := h
  refine ⟨log, s', r, q'', ⟨⟨haccount.leads, fun {t t' g} hlevel hleads hg => ?_, haccount.strict⟩,
    haccount.fits, haccount.allowed⟩, hr⟩
  rw [hrun t g hlevel]
  exact haccount.run hlevel hleads hg

theorem imp (h : Accounts T q s x Q) {Q' : α → Side → Prop} (himp : ∀ a q', Q a q' → Q' a q') :
    Accounts T q s x Q' := by
  obtain ⟨log, s', r, q', haccount, hr⟩ := h
  exact ⟨log, s', r, q', haccount, fun a ha => himp a q' (hr a ha)⟩

end Accounts

/-! ## Steps that only concern values -/

section

variable {α β : Type} {T : Terms} {q q' : Side} {s s' : Scene} {Q : α → Prop} {R : β → Prop}

theorem keeps_pure {a : α} (h : Q a) : Keeps T Q (pure a) :=
  fun _ _ hfits => .silent hfits (fun _ _ => rfl) fun _ ha => Except.ok.inj ha ▸ h

theorem keeps_throw (e : EvalError) : Keeps T Q (throw e : Running α) :=
  fun _ _ hfits => .silent hfits (fun _ _ => rfl) nofun

theorem Keeps.bind {x : Running α} {f : α → Running β} (hx : Keeps T Q x)
    (hf : ∀ a, Q a → Keeps T R (f a)) : Keeps T R (x >>= f) :=
  fun q s hfits =>
    (hx q s hfits).bind (fun {_ q' s'} ha hfits' _ => hf _ ha q' s' hfits') fun _ _ _ => rfl

theorem Keeps.imp {x : Running α} (hx : Keeps T Q x) {Q' : α → Prop} (h : ∀ a, Q a → Q' a) :
    Keeps T Q' x :=
  fun q s hfits => (hx q s hfits).imp fun a _ => h a

theorem keeps_look {f : Config → Store → Running α} (h : ∀ c s, Keeps T Q (f c s)) :
    Keeps T Q (get >>= fun m => f m.config m.store) :=
  fun q s hfits => (h q.config q.store q s hfits).congr fun _ _ _ => Machine.run_bind ..

theorem keeps_make {f : Store → α × Store} (h : ∀ s, Q (f s).1) : Keeps T Q (make f) :=
  fun q _ hfits => .silent (r := .ok (f q.store).1) (p := { q with store := (f q.store).2 })
    ⟨hfits.waiting, hfits.new, hfits.listener, hfits.config⟩ (fun _ _ => rfl)
    fun _ ha => Except.ok.inj ha ▸ h q.store

theorem elementary_keeps (T : Terms) : Elementary .all fun Q x => Keeps T Q x where
  pure := keeps_pure
  throw := keeps_throw
  bind := .bind
  look h := keeps_look fun c s => h c s s.reaches_all
  make h := keeps_make fun s => (h s s.reaches_all).1

theorem accounts_permit (hfits : T.Fits q s) (callee : Option Expr) (function : Value)
    (args : List Value) :
    Accounts T q s (fun _ => permit callee function args) fun _ q' =>
      q' = q ∧ T.gate callee function args q.store = .ok () := by
  refine .silent (r := T.gate callee function args q.store) hfits (fun {t g} _ hg => ?_)
    fun _ hok => ⟨rfl, hok⟩
  rw [Machine.run_permit]
  rcases hg with rfl | ⟨hok, hwithin⟩
  · rfl
  · cases hgate : T.gate callee function args q.store with
    | error e =>
        rw [hgate] at hok
        cases hok
    | ok _ =>
        change (g callee function args q.store, _) = _
        rw [hwithin _ _ _ _ hgate]

theorem keeps_permit (callee : Option Expr) (function : Value) (args : List Value) :
    Keeps T (fun _ => True) (permit callee function args) :=
  fun _ _ hfits => (accounts_permit hfits callee function args).imp fun _ _ _ => trivial

/-! ## Steps that ask the adapter -/

/-- A question to the adapter, of which the answer says all. -/
theorem accounts_ask (m : Move) {x : Scene → Adapting α} {a : α → Answer} (f : Answer → α)
    (hfits : T.Fits q s) (hm : T.Allows m)
    (h : ∀ t, s.Level t → t.perform m = t.ask (x t) a) (hanswer : ∀ v, f (a v) = v) :
    Accounts T q s (fun t => adapting (x t)) fun _ q' => q' = q := by
  refine .move (r := (s.perform m).1.settle f) m hfits hm (fun {t g} hlevel hreply => ?_)
    (fun hok => ?_) fun _ _ => rfl
  · rw [← hreply, h t hlevel, Machine.run_adapting]
    exact ⟨Prod.ext (Reply.settle_map hanswer _).symm rfl, rfl⟩
  · exact Reply.isOk_of_settle hok

end

end TraceLoom
