import KclModels.Build.File

/-!
# Outcomes of build steps

`m.Gives s a s'` says that the step `m`, started in the session `s`, ends well with `a` and leaves
the session `s'`. A step that is put together from others gives what they give one after the other,
so a statement about a step is taken apart by rewriting with the lemmas of this file until only
steps with a name of their own are left.

`m.Meets s E Q` speaks of failures as well: what the step ends well with is in `Q`, and if it fails
then with an error in `E`. A step that is put together meets what its parts meet, in order.
-/

namespace KclModels.Build

variable {tr : Text.Transliteration}
variable {α β : Type} {s s' : Session}

/-- The step ends well: started in `s` it gives `a` and leaves `s'`. -/
def Gives (m : Build α) (s : Session) (a : α) (s' : Session) : Prop :=
  (m.run s).run = (.ok a, s')

theorem run_bind_ok {m : Build α} {k : α → Build β} {a : α} (h : (m.run s).run = (.ok a, s')) :
    ((m >>= k).run s).run = ((k a).run s').run := by
  have hm : m.run s = (.ok a, s') := h
  show (match m.run s with | (r, t) => (ExceptT.bindCont k r) t) = _
  rw [hm]
  rfl

theorem run_bind_error {m : Build α} {k : α → Build β} {e : GenerationError}
    (h : (m.run s).run = (.error e, s')) : ((m >>= k).run s).run = (.error e, s') := by
  have hm : m.run s = (.error e, s') := h
  show (match m.run s with | (r, t) => (ExceptT.bindCont k r) t) = _
  rw [hm]
  rfl

theorem gives_bind {m : Build α} {k : α → Build β} {b : β} :
    (m >>= k).Gives s b s' ↔ ∃ a t, m.Gives s a t ∧ (k a).Gives t b s' := by
  unfold Gives
  rcases hm : (m.run s).run with ⟨r, t⟩
  cases r with
  | error e =>
    rw [run_bind_error hm]
    simp
  | ok a =>
    rw [run_bind_ok hm]
    constructor
    · exact fun h => ⟨a, t, rfl, h⟩
    · rintro ⟨a', t', heq, h⟩
      obtain ⟨rfl, rfl⟩ : a = a' ∧ t = t' := by simpa using heq
      exact h

theorem gives_pure {a b : α} : (pure a : Build α).Gives s b s' ↔ a = b ∧ s = s' := by
  show (Except.ok a, s) = (Except.ok b, s') ↔ _
  simp

theorem gives_throw {e : GenerationError} {a : α} :
    (throw e : Build α).Gives s a s' ↔ False := by
  show (Except.error e, s) = (Except.ok a, s') ↔ _
  simp

theorem gives_registry {r : Registry} : registry.Gives s r s' ↔ s.registry = r ∧ s = s' := by
  show (Except.ok s.registry, s) = (Except.ok r, s') ↔ _
  simp

theorem gives_warnAll {ws : List Warning} {u : Unit} :
    (warnAll ws).Gives s u s' ↔ { s with warnings := s.warnings ++ ws } = s' := by
  show (Except.ok (), _) = (Except.ok u, s') ↔ _
  simp

theorem gives_warn {w : Warning} {u : Unit} :
    (warn w).Gives s u s' ↔ { s with warnings := s.warnings ++ [w] } = s' :=
  gives_warnAll

theorem gives_ofType {r : Except TypeError α} {a : α} :
    (ofType r).Gives s a s' ↔ r = .ok a ∧ s = s' := by
  cases r with
  | error e => simp [ofType, gives_throw]
  | ok b => simp [ofType, gives_pure]

theorem gives_ofReference {r : Except ReferenceError α} {a : α} :
    (ofReference r).Gives s a s' ↔ r = .ok a ∧ s = s' := by
  cases r with
  | error e => simp [ofReference, gives_throw]
  | ok b => simp [ofReference, gives_pure]

/-- The resolver of a frame in a session. -/
def resolverAt (setting : Setting) (f : Frame) (s : Session) : Resolver where
  registry := s.registry
  options := setting.options
  modelName := f.modelName
  path := f.path

variable {setting : Setting} {f f' : Frame} {c : Schema}

theorem gives_resolver {r : Resolver} :
    (resolver setting f).Gives s r s' ↔ resolverAt setting f s = r ∧ s = s' := by
  show (Except.ok (resolverAt setting f s), s) = (Except.ok r, s') ↔ _
  simp

theorem gives_resolve {anonymous required : Bool} {t : TypeInfo} :
    (resolve setting f c anonymous required).Gives s t s' ↔
      (resolverAt setting f s).resolve c anonymous required = .ok t ∧ s = s' := by
  simp only [resolve, gives_bind, gives_resolver, gives_ofType]
  constructor
  · rintro ⟨_, _, ⟨rfl, rfl⟩, h⟩; exact h
  · intro h; exact ⟨_, _, ⟨rfl, rfl⟩, h⟩

theorem gives_hoist {base : String} :
    (hoist f base c).Gives s f' s' ↔
      f.hoisted (s.registry.hoist (hoistBase f base) c).1 c = f' ∧
        { s with registry := (s.registry.hoist (hoistBase f base) c).2 } = s' := by
  show (Except.ok _, _) = (Except.ok f', s') ↔ _
  simp only [Prod.mk.injEq, Except.ok.injEq]
  rfl

/-! ## Steps that may fail -/

/-- Started in `s`, the step ends well with a result in `Q` or fails with an error in `E`. -/
def Meets (m : Build α) (s : Session) (E : GenerationError → Prop) (Q : α → Session → Prop) :
    Prop :=
  (∀ a s', (m.run s).run = (.ok a, s') → Q a s') ∧ ∀ e s', (m.run s).run = (.error e, s') → E e

variable {E : GenerationError → Prop} {Q Q' : α → Session → Prop} {m : Build α}

theorem Meets.mono (h : m.Meets s E Q) (hQ : ∀ a s', Q a s' → Q' a s') : m.Meets s E Q' :=
  ⟨fun a s' hm => hQ a s' (h.1 a s' hm), h.2⟩

/-- What a step gives may be used to say what it meets. -/
theorem Meets.gives (h : m.Meets s E Q) : m.Meets s E fun a s' => Q a s' ∧ m.Gives s a s' :=
  ⟨fun a s' hm => ⟨h.1 a s' hm, hm⟩, h.2⟩

theorem meets_bind {k : α → Build β} {P : β → Session → Prop} (h : m.Meets s E Q)
    (hk : ∀ a t, Q a t → (k a).Meets t E P) : (m >>= k).Meets s E P := by
  unfold Meets
  rcases hm : (m.run s).run with ⟨r, t⟩
  cases r with
  | error e =>
    rw [run_bind_error hm]
    refine ⟨fun a s' heq => by simp at heq, fun e' s' heq => ?_⟩
    obtain ⟨rfl, rfl⟩ : e = e' ∧ t = s' := by simpa using heq
    exact h.2 e t hm
  | ok a =>
    rw [run_bind_ok hm]
    exact hk a t (h.1 a t hm)

theorem meets_pure {a : α} (h : Q a s) : (pure a : Build α).Meets s E Q := by
  constructor
  · intro b s' hm
    obtain ⟨rfl, rfl⟩ := gives_pure.mp hm
    exact h
  · intro e s' hm
    exact absurd (Prod.mk.inj hm).1 (by simp)

theorem meets_throw {e : GenerationError} (h : E e) : (throw e : Build α).Meets s E Q := by
  constructor
  · intro a s' hm
    exact (gives_throw.mp hm).elim
  · intro e' s' hm
    obtain ⟨heq, -⟩ := Prod.mk.inj hm
    exact Except.error.inj heq ▸ h

theorem meets_registry {Q : Registry → Session → Prop} (h : Q s.registry s) :
    registry.Meets s E Q := by
  constructor
  · intro r s' hm
    obtain ⟨rfl, rfl⟩ := gives_registry.mp hm
    exact h
  · intro e s' hm
    exact absurd (Prod.mk.inj hm).1 (by simp)

theorem meets_warnAll {ws : List Warning} {Q : Unit → Session → Prop}
    (h : Q () { s with warnings := s.warnings ++ ws }) : (warnAll ws).Meets s E Q := by
  constructor
  · intro u s' hm
    rw [← gives_warnAll.mp hm]
    exact h
  · intro e s' hm
    exact absurd (Prod.mk.inj hm).1 (by simp)

theorem meets_ofType {r : Except TypeError α} (hok : ∀ a, r = .ok a → Q a s)
    (herror : ∀ e, r = .error e → E (.type e)) : (ofType r).Meets s E Q := by
  cases r with
  | error e => exact meets_throw (herror e rfl)
  | ok a => exact meets_pure (hok a rfl)

theorem meets_ofReference {r : Except ReferenceError α} (hok : ∀ a, r = .ok a → Q a s)
    (herror : ∀ e, r = .error e → E (.type (.reference e))) : (ofReference r).Meets s E Q := by
  cases r with
  | error e => exact meets_throw (herror e rfl)
  | ok a => exact meets_pure (hok a rfl)

theorem meets_resolver {Q : Resolver → Session → Prop} (h : Q (resolverAt setting f s) s) :
    (resolver setting f).Meets s E Q := by
  constructor
  · intro r s' hm
    obtain ⟨rfl, rfl⟩ := gives_resolver.mp hm
    exact h
  · intro e s' hm
    exact absurd (Prod.mk.inj hm).1 (by simp)

theorem meets_resolve {anonymous required : Bool} {Q : TypeInfo → Session → Prop}
    (hok : ∀ t, (resolverAt setting f s).resolve c anonymous required = .ok t → Q t s)
    (herror : ∀ e, (resolverAt setting f s).resolve c anonymous required = .error e →
      E (.type e)) : (resolve setting f c anonymous required).Meets s E Q := by
  refine meets_bind (Q := fun r t => r = resolverAt setting f s ∧ t = s)
    (meets_resolver ⟨rfl, rfl⟩) ?_
  rintro r t ⟨rfl, rfl⟩
  exact meets_ofType hok herror

theorem meets_hoist {base : String} {Q : Frame → Session → Prop}
    (h : Q (f.hoisted (s.registry.hoist (hoistBase f base) c).1 c)
      { s with registry := (s.registry.hoist (hoistBase f base) c).2 }) :
    (hoist f base c).Meets s E Q := by
  constructor
  · intro g s' hm
    obtain ⟨rfl, rfl⟩ := gives_hoist.mp hm
    exact h
  · intro e s' hm
    exact absurd (Prod.mk.inj hm).1 (by simp)

end KclModels.Build

/-!
## Two runs side by side

A statement about two runs of building, in two sessions, is put together like one about a single
run: `m.Pairs s m' s' E Q` says that the steps `m` and `m'`, started in `s` and `s'`, both end well
with results that are related by `Q`, or both fail with errors that are related by `E`. Steps that
are put together from others are related if those are, one after the other.
-/

namespace KclModels.Build

variable {tr : Text.Transliteration}
variable {α β γ δ : Type}

/-- The step fails: started in `s` it ends with the error `e`. -/
def Throws (m : Build α) (s : Session) (e : GenerationError) : Prop :=
  ∃ t, (m.run s).run = (.error e, t)

/-- Both steps end well with results in `Q`, or both fail with errors in `E`. -/
inductive Pairs (m : Build α) (s : Session) (m' : Build β) (s' : Session)
    (E : GenerationError → GenerationError → Prop) (Q : α → Session → β → Session → Prop) : Prop
  | ok {a : α} {t : Session} {b : β} {t' : Session} : m.Gives s a t → m'.Gives s' b t' →
      Q a t b t' → Pairs m s m' s' E Q
  | error {e e' : GenerationError} : m.Throws s e → m'.Throws s' e' → E e e' → Pairs m s m' s' E Q

variable {m : Build α} {m' : Build β} {k : α → Build γ} {k' : β → Build δ} {s s' : Session}
variable {E : GenerationError → GenerationError → Prop}
variable {Q Q' : α → Session → β → Session → Prop} {P : γ → Session → δ → Session → Prop}

theorem throws_bind {e : GenerationError} (h : m.Throws s e) : (m >>= k).Throws s e := by
  obtain ⟨t, ht⟩ := h
  exact ⟨t, run_bind_error ht⟩

theorem throws_bind_of_gives {a : α} {t : Session} {e : GenerationError} (h : m.Gives s a t)
    (hk : (k a).Throws t e) : (m >>= k).Throws s e := by
  obtain ⟨t', ht'⟩ := hk
  exact ⟨t', (run_bind_ok h).trans ht'⟩

theorem Pairs.mono (h : m.Pairs s m' s' E Q) (hQ : ∀ a t b t', Q a t b t' → Q' a t b t') :
    m.Pairs s m' s' E Q' := by
  cases h with
  | ok hm hm' h => exact .ok hm hm' (hQ _ _ _ _ h)
  | error hm hm' h => exact .error hm hm' h

theorem Pairs.bind (h : m.Pairs s m' s' E Q)
    (hk : ∀ a t b t', Q a t b t' → (k a).Pairs t (k' b) t' E P) :
    (m >>= k).Pairs s (m' >>= k') s' E P := by
  cases h with
  | error hm hm' h => exact .error (throws_bind hm) (throws_bind hm') h
  | ok hm hm' h =>
    cases hk _ _ _ _ h with
    | ok hn hn' h => exact .ok (gives_bind.mpr ⟨_, _, hm, hn⟩) (gives_bind.mpr ⟨_, _, hm', hn'⟩) h
    | error hn hn' h => exact .error (throws_bind_of_gives hm hn) (throws_bind_of_gives hm' hn') h

theorem pairs_pure {a : α} {b : β} (h : Q a s b s') :
    (pure a : Build α).Pairs s (pure b) s' E Q :=
  .ok (gives_pure.mpr ⟨rfl, rfl⟩) (gives_pure.mpr ⟨rfl, rfl⟩) h

theorem pairs_throw {e e' : GenerationError} (h : E e e') :
    (throw e : Build α).Pairs s (throw e' : Build β) s' E Q :=
  .error ⟨s, rfl⟩ ⟨s', rfl⟩ h

theorem pairs_registry {Q : Registry → Session → Registry → Session → Prop}
    (h : Q s.registry s s'.registry s') : registry.Pairs s registry s' E Q :=
  .ok (gives_registry.mpr ⟨rfl, rfl⟩) (gives_registry.mpr ⟨rfl, rfl⟩) h

theorem pairs_warnAll {ws ws' : List Warning} {Q : Unit → Session → Unit → Session → Prop}
    (h : Q () { s with warnings := s.warnings ++ ws } () { s' with warnings := s'.warnings ++ ws' }) :
    (warnAll ws).Pairs s (warnAll ws') s' E Q :=
  .ok (gives_warnAll.mpr rfl) (gives_warnAll.mpr rfl) h

variable {setting : Setting} {f f' : Frame} {c c' : Schema}

theorem pairs_resolver {Q : Resolver → Session → Resolver → Session → Prop}
    (h : Q (resolverAt setting f s) s (resolverAt setting f' s') s') :
    (resolver setting f).Pairs s (resolver setting f') s' E Q :=
  .ok (gives_resolver.mpr ⟨rfl, rfl⟩) (gives_resolver.mpr ⟨rfl, rfl⟩) h

theorem pairs_hoist {base base' : String} {Q : Frame → Session → Frame → Session → Prop}
    (h : Q (f.hoisted (s.registry.hoist (hoistBase f base) c).1 c)
      { s with registry := (s.registry.hoist (hoistBase f base) c).2 }
      (f'.hoisted (s'.registry.hoist (hoistBase f' base') c').1 c')
      { s' with registry := (s'.registry.hoist (hoistBase f' base') c').2 }) :
    (hoist f base c).Pairs s (hoist f' base' c') s' E Q :=
  .ok (gives_hoist.mpr ⟨rfl, rfl⟩) (gives_hoist.mpr ⟨rfl, rfl⟩) h

end KclModels.Build
