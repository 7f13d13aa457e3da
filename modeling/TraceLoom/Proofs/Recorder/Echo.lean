import TraceLoom.Proofs.Recorder.Discipline
import TraceLoom.Proofs.Recorder.Mirror

/-!
Recordings that a second recorder echoes.  The second recorder has a trace that covers whatever
the first one comes to record.  Then it does the same, under other numbers for contexts, and its
trace stays as it is.
-/

namespace TraceLoom

open Trace

theorem Trace.Covers.trans {b c d : List Trace} (hb : WellFormed (block b))
    (hc : WellFormed (block c)) (hd : WellFormed (block d)) (hbc : Covers b c) (hcd : Covers c d) :
    Covers b d := by
  have hassoc := joinBody_assoc_of_wellFormed hb hc hd
  have hbc' : joinBody b c = some b := hbc
  have hcd' : joinBody c d = some c := hcd
  rwa [hbc', hcd', Option.bind_some, Option.bind_some, hbc'] at hassoc

namespace Recorder

/-- A recorder that is in use, in a context of its own among those numbered from `n` on. -/
structure InUse (n : Nat) (r : Recorder) : Prop where
  sound : r.Sound
  pending : r.PlainPending
  failure : r.failure = none
  le : n ≤ r.nextContext
  own : Own n r.active

end Recorder

namespace Recording

open Recorder

variable {α β γ δ : Type} {n m : Nat}

/-- The second recording does what the first one does, where it is covered already. -/
def Echoes (n m : Nat) (x : Recording α) (y : Recording β) (f : α → β) (Q : α → Prop) : Prop :=
  ∀ (a a' : Recorder) (v : α), a.InUse n → run x a = (.ok v, a') →
    (a'.InUse n ∧ Covers a'.root a.root ∧ Q v) ∧
      ∀ b : Recorder, Mirrors n m a b → b.Sound → Covers b.root a'.root →
        ∃ b', run y b = (.ok (f v), b') ∧ Mirrors n m a' b' ∧ b'.Sound ∧ b'.root = b.root

theorem Echoes.imp {x : Recording α} {y : Recording β} {f : α → β} {Q R : α → Prop}
    (h : Echoes n m x y f Q) (himp : ∀ v, Q v → R v) : Echoes n m x y f R := by
  intro a a' v ha hrun
  obtain ⟨⟨ha', hgrown, hv⟩, hecho⟩ := h a a' v ha hrun
  exact ⟨⟨ha', hgrown, himp v hv⟩, hecho⟩

theorem Echoes.bind {x : Recording α} {y : Recording β} {f : α → β} {Q : α → Prop}
    {k : α → Recording γ} {l : β → Recording δ} {g : γ → δ} {R : γ → Prop}
    (hx : Echoes n m x y f Q) (hk : ∀ v, Q v → Echoes n m (k v) (l (f v)) g R) :
    Echoes n m (x >>= k) (y >>= l) g R := by
  intro a a₂ w ha hrun
  rw [run_bind] at hrun
  rcases hfirst : run x a with ⟨_ | v, a₁⟩
  · rw [hfirst] at hrun
    cases hrun
  · rw [hfirst] at hrun
    obtain ⟨⟨ha₁, hgrown₁, hv⟩, hecho₁⟩ := hx a a₁ v ha hfirst
    obtain ⟨⟨ha₂, hgrown₂, hw⟩, hecho₂⟩ := hk v hv a₁ a₂ w ha₁ hrun
    have htidy := ha.sound.tidy.wellFormed
    have htidy₁ := ha₁.sound.tidy.wellFormed
    have htidy₂ := ha₂.sound.tidy.wellFormed
    refine ⟨⟨ha₂, hgrown₂.trans htidy₂ htidy₁ htidy hgrown₁, hw⟩, fun b hb hsound hcovers => ?_⟩
    obtain ⟨b₁, hrun₁, hb₁, hsound₁, hroot₁⟩ :=
      hecho₁ b hb hsound (hcovers.trans hsound.tidy.wellFormed htidy₂ htidy₁ hgrown₂)
    obtain ⟨b₂, hrun₂, hb₂, hsound₂, hroot₂⟩ := hecho₂ b₁ hb₁ hsound₁ (hroot₁ ▸ hcovers)
    refine ⟨b₂, ?_, hb₂, hsound₂, hroot₂.trans hroot₁⟩
    rw [run_bind, hrun₁]
    exact hrun₂

theorem echoes_pure {f : α → β} {Q : α → Prop} {v : α} (hv : Q v) :
    Echoes n m (pure v) (pure (f v)) f Q := by
  intro a a' w ha hrun
  cases hrun
  exact ⟨⟨ha, .refl ha.sound.tidy.wellFormed, hv⟩, fun b hb hsound _ => ⟨_, rfl, hb, hsound, rfl⟩⟩

/-- What holds of a recording whose result is then put into another form, holds of it alone. -/
theorem Echoes.of_map {x : Recording α} {y : Recording β} {p : α → γ} {q : β → δ} {f : γ → δ}
    {g : α → β} {Q : γ → Prop} (h : Echoes n m (x >>= fun v => pure (p v))
      (y >>= fun w => pure (q w)) f Q) (hq : ∀ v w, q w = f (p v) → w = g v) :
    Echoes n m x y g fun v => Q (p v) := by
  intro a a' v ha hrun
  have hmapped : run (x >>= fun v => pure (p v)) a = (.ok (p v), a') := by
    rw [run_bind, hrun]
    rfl
  obtain ⟨hafter, hecho⟩ := h a a' (p v) ha hmapped
  refine ⟨hafter, fun b hb hsound hcovers => ?_⟩
  obtain ⟨b', hrun', hrest⟩ := hecho b hb hsound hcovers
  refine ⟨b', ?_, hrest⟩
  rw [run_bind] at hrun'
  rcases hy : run y b with ⟨_ | w, b₁⟩
  · rw [hy] at hrun'
    cases hrun'
  · rw [hy] at hrun'
    obtain ⟨hw, rfl⟩ := Prod.mk.inj hrun'
    rw [hq v w (Except.ok.inj hw)]

/-- Operations that stay in the active context are echoed. -/
theorem echoes_perform {op : Operation} (hop : op.Plain) (hplan : ∀ c, (op.plan? c).isSome = true) :
    Echoes n m op.perform op.perform (Operation.Outcome.renamed (shift n m)) fun out =>
      (∀ ts, out = .args ts → ∀ t ∈ ts, Trace.Plain t) ∧ ∀ id, out = .context id → n ≤ id := by
  intro a a' out ha hrun
  obtain ⟨c, hc⟩ := ha.sound.active
  obtain ⟨p, hp⟩ := Option.isSome_iff_exists.mp (hplan c)
  have hok : (run op.perform a).1.isOk = true := by rw [hrun]; rfl
  have hperformed := Operation.performed ha.sound ha.pending hop hc hp
  have hgrows := Operation.grows_perform ha.sound hop ha.failure hok
  have hsound := (Operation.keepsSound_perform ha.sound hop).sound
  rw [hrun] at hperformed hgrows hsound
  refine ⟨⟨⟨hsound, hperformed.pending, hgrows.1, Nat.le_trans ha.le hperformed.stays.fresh,
    hperformed.stays.active ▸ ha.own⟩, covers_left_of_joinBody ha.sound.tidy.wellFormed
    hsound.tidy.wellFormed hgrows.2, fun ts hts => hperformed.args (hts ▸ rfl), ?_⟩, ?_⟩
  · rintro id rfl
    obtain ⟨-, hgive | ⟨base, -, hid, -⟩⟩ := hperformed.ok rfl
    · exact absurd hgive ((Operation.fits_of_plan? hp).give id)
    · cases hid
      exact ha.le
  · intro b hb hbsound hcovers
    have hown : ∀ id ∈ op.contextIds, Own n id := by
      cases op <;> first | exact List.forall_mem_nil _ | cases hp
    obtain ⟨hresult, hroot, hmirrors⟩ := hb.perform_of_join ha.sound hbsound hop hown hok
      (by rw [hrun]; exact hcovers)
    rw [Operation.renamed_of_plan? hp] at hresult hroot hmirrors
    rw [hrun] at hresult hmirrors
    exact ⟨_, Prod.ext hresult rfl, hmirrors, (Operation.keepsSound_perform hbsound hop).sound, hroot⟩

end Recording

end TraceLoom
