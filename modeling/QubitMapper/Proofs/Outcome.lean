import Mathlib.Data.List.Forall2
import Mathlib.Data.List.Nodup
import Mathlib.Order.Defs.Unbundled

/-!
# Outcomes of steps

The checked functions return `Except`, the passes and the router run in `EStateM`. This module says
when a composed step succeeds. `Meets x s post fail` says of a step `x` from a state `s` that it
ends with `post` if it succeeds and with `fail` if it fails; `Returns` rules failure out, `Ensures`
is silent about it, and `Keeps` is about both ends alike.

## Main results

* `Except.bind_eq_ok`, `forM_eq_ok_iff`, `mapM_eq_ok_iff`, `mapM_eq_some_iff`.
* `foldlM_invariant`, `Returns.forM`: loops by an invariant.
* `Meets.bind`, `Meets.mono`: composition and weakening, with one equation for each primitive.
* `Keeps.bind`, `Keeps.forM`, `Keeps.mapM`: what each step keeps, a composed step keeps.
-/

namespace QubitMapper

/-! ## Checked functions -/

section Checked

variable {ε α β : Type}

theorem Except.bind_eq_ok {x : Except ε α} {f : α → Except ε β} {b : β} :
    x >>= f = .ok b ↔ ∃ a, x = .ok a ∧ f a = .ok b := by
  cases x <;> simp [bind, Except.bind]

theorem Except.map_eq_ok {x : Except ε α} {f : α → β} {b : β} :
    f <$> x = .ok b ↔ ∃ a, x = .ok a ∧ f a = b := by
  cases x <;> simp [Functor.map, Except.map]

theorem Except.mapError_eq_ok {ε' : Type} {x : Except ε α} {f : ε → ε'} {a : α} :
    x.mapError f = .ok a ↔ x = .ok a := by
  cases x <;> simp [Except.mapError]

theorem Except.toOption_eq_some {x : Except ε α} {a : α} : x.toOption = some a ↔ x = .ok a := by
  cases x <;> simp [Except.toOption]

/-- Two checks in order succeed if both do. -/
theorem seq_eq_ok_iff {x y : Except ε Unit} :
    (x >>= fun _ => y) = .ok () ↔ x = .ok () ∧ y = .ok () := by
  cases x <;> simp [bind, Except.bind]

/-- A check of all elements of a list succeeds if each single check does. -/
theorem forM_eq_ok_iff {f : α → Except ε Unit} {l : List α} :
    forM l f = .ok () ↔ ∀ a ∈ l, f a = .ok () := by
  induction l with
  | nil => simp [pure, Except.pure]
  | cons a rest ih =>
      rw [List.forM_cons, Except.bind_eq_ok, List.forall_mem_cons, ← ih]
      exact ⟨fun ⟨_, ha, hrest⟩ => ⟨ha, hrest⟩, fun ⟨ha, hrest⟩ => ⟨⟨⟩, ha, hrest⟩⟩

/-- A check of all elements of a list fails only as one of them does. -/
theorem exists_of_forM_eq_error {f : α → Except ε Unit} {l : List α} {e : ε}
    (h : forM l f = .error e) : ∃ a ∈ l, f a = .error e := by
  induction l with
  | nil => cases h
  | cons a rest ih =>
      rw [List.forM_cons] at h
      cases ha : f a with
      | error e' =>
          rw [ha] at h
          cases h
          exact ⟨a, List.mem_cons_self, ha⟩
      | ok _ =>
          rw [ha] at h
          obtain ⟨a', hmem, ha'⟩ := ih h
          exact ⟨a', List.mem_cons_of_mem _ hmem, ha'⟩

theorem mapM_eq_ok_iff {f : α → Except ε β} {l : List α} {l' : List β} :
    l.mapM f = .ok l' ↔ List.Forall₂ (fun a b => f a = .ok b) l l' := by
  induction l generalizing l' with
  | nil =>
      rw [List.mapM_nil, List.forall₂_nil_left_iff]
      simp [pure, Except.pure, eq_comm]
  | cons a rest ih =>
      rw [List.mapM_cons, List.forall₂_cons_left_iff]
      simp only [Except.bind_eq_ok, ih, pure, Except.pure, Except.ok.injEq]
      constructor
      · rintro ⟨b, hb, bs, hbs, rfl⟩
        exact ⟨b, bs, hb, hbs, rfl⟩
      · rintro ⟨b, bs, hb, hbs, rfl⟩
        exact ⟨b, hb, bs, hbs, rfl⟩

/-- If a check succeeds at each element of a list, it succeeds at all of them in order. -/
theorem exists_mapM_eq_ok {f : α → Except ε β} {R : α → β → Prop} {l : List α}
    (h : ∀ a ∈ l, ∃ b, f a = .ok b ∧ R a b) : ∃ l', l.mapM f = .ok l' ∧ List.Forall₂ R l l' := by
  induction l with
  | nil => exact ⟨[], rfl, .nil⟩
  | cons a rest ih =>
      obtain ⟨b, hb, hab⟩ := h a List.mem_cons_self
      obtain ⟨bs, hbs, hall⟩ := ih fun c hc => h c (List.mem_cons_of_mem _ hc)
      refine ⟨b :: bs, ?_, .cons hab hall⟩
      rw [mapM_eq_ok_iff] at hbs ⊢
      exact .cons hb hbs

theorem mapM_eq_some_iff {f : α → Option β} {l : List α} {l' : List β} :
    l.mapM f = some l' ↔ List.Forall₂ (fun a b => f a = some b) l l' := by
  induction l generalizing l' with
  | nil =>
      rw [List.mapM_nil, List.forall₂_nil_left_iff]
      simp [pure, eq_comm]
  | cons a rest ih =>
      rw [List.mapM_cons, List.forall₂_cons_left_iff]
      simp only [bind, Option.bind_eq_some_iff, ih, pure, Option.some.injEq]
      constructor
      · rintro ⟨b, hb, bs, hbs, rfl⟩
        exact ⟨b, bs, hb, hbs, rfl⟩
      · rintro ⟨b, bs, hb, hbs, rfl⟩
        exact ⟨b, hb, bs, hbs, rfl⟩

/-- A fold that succeeds keeps what each of its steps keeps. -/
theorem foldlM_invariant {f : β → α → Except ε β} (P : List α → β → Prop)
    (hstep : ∀ done a b b', P done b → f b a = .ok b' → P (done ++ [a]) b') {l : List α} :
    ∀ {done : List α} {b b' : β}, P done b → l.foldlM f b = .ok b' → P (done ++ l) b' := by
  induction l with
  | nil =>
      intro done b b' hb h
      simp only [List.foldlM_nil, pure, Except.pure, Except.ok.injEq] at h
      simpa [← h] using hb
  | cons a rest ih =>
      intro done b b' hb h
      rw [List.foldlM_cons, Except.bind_eq_ok] at h
      obtain ⟨b₁, h₁, h⟩ := h
      have := ih (hstep done a b b₁ hb h₁) h
      rwa [List.append_assoc] at this

/-- A fold succeeds exactly if each step does, where what was gathered before has no say in that. -/
theorem exists_foldlM_eq_ok_iff {f : β → α → Except ε β} {P : α → Prop}
    (hf : ∀ b a, (∃ b', f b a = .ok b') ↔ P a) {l : List α} :
    ∀ {b : β}, (∃ b', l.foldlM f b = .ok b') ↔ ∀ a ∈ l, P a := by
  induction l with
  | nil => exact fun {b} => ⟨fun _ _ hmem => absurd hmem List.not_mem_nil, fun _ => ⟨b, rfl⟩⟩
  | cons a rest ih =>
      intro b
      rw [List.forall_mem_cons, ← hf b a]
      simp only [List.foldlM_cons, Except.bind_eq_ok]
      constructor
      · rintro ⟨b', b₁, h₁, h⟩
        exact ⟨⟨b₁, h₁⟩, ih.mp ⟨b', h⟩⟩
      · rintro ⟨⟨b₁, h₁⟩, hrest⟩
        obtain ⟨b', h⟩ := ih.mpr hrest
        exact ⟨b', b₁, h₁, h⟩

end Checked

/-! ## Corresponding lists -/

section Corresponding

variable {α β : Type} {R : α → β → Prop} {l : List α} {l' : List β}

theorem forall₂_getElem? (h : List.Forall₂ R l l') {j : Nat} {a : α} (ha : l[j]? = some a) :
    ∃ b, l'[j]? = some b ∧ R a b := by
  obtain ⟨hj, rfl⟩ := List.getElem?_eq_some_iff.mp ha
  have hj' : j < l'.length := h.length_eq ▸ hj
  exact ⟨l'[j], List.getElem?_eq_getElem hj', h.get hj hj'⟩

theorem forall₂_mem_left (h : List.Forall₂ R l l') {a : α} (ha : a ∈ l) : ∃ b ∈ l', R a b := by
  obtain ⟨j, hj⟩ := List.mem_iff_getElem?.mp ha
  obtain ⟨b, hb, hab⟩ := forall₂_getElem? h hj
  exact ⟨b, List.mem_of_getElem? hb, hab⟩

theorem forall₂_mem_right (h : List.Forall₂ R l l') {b : β} (hb : b ∈ l') : ∃ a ∈ l, R a b :=
  forall₂_mem_left h.flip hb

theorem forall₂_of_getElem? (hlen : l.length = l'.length)
    (h : ∀ (j : Nat) a b, l[j]? = some a → l'[j]? = some b → R a b) : List.Forall₂ R l l' := by
  refine List.forall₂_iff_get.mpr ⟨hlen, fun j hj hj' => ?_⟩
  exact h j _ _ (List.getElem?_eq_getElem hj) (List.getElem?_eq_getElem hj')

/-- If there is something for each element of a list, there is a list for it. -/
theorem exists_forall₂ (h : ∀ a ∈ l, ∃ b, R a b) : ∃ l', List.Forall₂ R l l' := by
  induction l with
  | nil => exact ⟨[], .nil⟩
  | cons a rest ih =>
      rw [List.forall_mem_cons] at h
      obtain ⟨⟨b, hab⟩, hrest⟩ := h
      obtain ⟨bs, hall⟩ := ih hrest
      exact ⟨b :: bs, .cons hab hall⟩

/-- If every element decides the one it corresponds to, repetitions correspond to repetitions. -/
theorem nodup_of_forall₂ (h : List.Forall₂ R l l') (hR : ∀ a b b', R a b → R a b' → b = b')
    (hnodup : l'.Nodup) : l.Nodup := by
  induction h with
  | nil => exact List.nodup_nil
  | cons hab htail ih =>
      rw [List.nodup_cons] at hnodup ⊢
      refine ⟨fun hmem => ?_, ih hnodup.2⟩
      obtain ⟨b', hb', hab'⟩ := forall₂_mem_left htail hmem
      exact hnodup.1 (hR _ _ _ hab hab' ▸ hb')

end Corresponding

/-! ## Steps with a state -/

section Stateful

variable {ε σ α β : Type} {x : EStateM ε σ α} {f : α → EStateM ε σ β} {s : σ}

/-- A step from a state ends with `post` if it succeeds and with `fail` if it fails. -/
def Meets (x : EStateM ε σ α) (s : σ) (post : α → σ → Prop) (fail : ε → σ → Prop) : Prop :=
  match x s with
  | .ok a s' => post a s'
  | .error e s' => fail e s'

/-- A step from a state succeeds and ends with `post`. -/
def Returns (x : EStateM ε σ α) (s : σ) (post : α → σ → Prop) : Prop :=
  Meets x s post fun _ _ => False

/-- A step from a state ends with `post` if it succeeds. -/
def Ensures (x : EStateM ε σ α) (s : σ) (post : α → σ → Prop) : Prop :=
  Meets x s post fun _ _ => True

theorem returns_iff {post : α → σ → Prop} :
    Returns x s post ↔ ∃ a s', x s = .ok a s' ∧ post a s' := by
  unfold Returns Meets
  cases h : x s <;> simp

theorem get_bind {f : σ → EStateM ε σ β} : (get >>= f) s = f s s := rfl

/-- The rest of a step whose beginning succeeds. -/
theorem bind_of_eq {a : α} {s' : σ} (h : x s = .ok a s') : (x >>= f) s = f a s' := by
  show EStateM.bind x f s = _
  unfold EStateM.bind
  rw [h]

/-- A step whose beginning fails fails with it. -/
theorem bind_of_eq_error {e : ε} {s' : σ} (h : x s = .error e s') :
    (x >>= f) s = .error e s' := by
  show EStateM.bind x f s = _
  unfold EStateM.bind
  rw [h]

/-- A composed step succeeds if both parts do, one after the other. -/
theorem bind_eq_ok_iff {b : β} {t : σ} :
    (x >>= f) s = .ok b t ↔ ∃ a s', x s = .ok a s' ∧ f a s' = .ok b t := by
  show EStateM.bind x f s = _ ↔ _
  unfold EStateM.bind
  cases x s <;> simp

/-- What is known of a step that is known to succeed. -/
theorem returns_of_eq {a : α} {s' : σ} (h : x s = .ok a s') {post : α → σ → Prop} :
    Returns x s post ↔ post a s' := by
  unfold Returns Meets
  rw [h]

theorem Meets.mono {post post' : α → σ → Prop} {fail fail' : ε → σ → Prop}
    (h : Meets x s post fail) (hpost : ∀ a s', post a s' → post' a s')
    (hfail : ∀ e s', fail e s' → fail' e s') : Meets x s post' fail' := by
  unfold Meets at h ⊢
  cases hx : x s with
  | ok a s' =>
      rw [hx] at h
      exact hpost a s' h
  | error e s' =>
      rw [hx] at h
      exact hfail e s' h

theorem meets_true : Meets x s (fun _ _ => True) fun _ _ => True := by
  unfold Meets
  cases x s <;> trivial

/-- What is known of a step in two ways. -/
theorem Meets.and {post post' : α → σ → Prop} {fail fail' : ε → σ → Prop}
    (h : Meets x s post fail) (h' : Meets x s post' fail') :
    Meets x s (fun a s' => post a s' ∧ post' a s') fun e s' => fail e s' ∧ fail' e s' := by
  unfold Meets at h h' ⊢
  cases hx : x s with
  | ok a s' =>
      rw [hx] at h h'
      exact ⟨h, h'⟩
  | error e s' =>
      rw [hx] at h h'
      exact ⟨h, h'⟩

/-- What is known of the end of a step that succeeded. -/
theorem Meets.of_ok {post : α → σ → Prop} {fail : ε → σ → Prop} (h : Meets x s post fail) {a : α}
    {s' : σ} (hx : x s = .ok a s') : post a s' := by
  unfold Meets at h
  rwa [hx] at h

/-- What a step that failed has shown as its failure. -/
theorem Meets.error_eq {post : α → σ → Prop} {fail : ε → σ → Prop} (h : Meets x s post fail) :
    Meets x s post fun e s' => fail e s' ∧ x s = .error e s' := by
  unfold Meets at h ⊢
  cases hx : x s with
  | ok a s' =>
      rw [hx] at h
      exact h
  | error e s' =>
      rw [hx] at h
      exact ⟨h, rfl⟩

theorem Returns.mono {post post' : α → σ → Prop} (h : Returns x s post)
    (hpost : ∀ a s', post a s' → post' a s') : Returns x s post' :=
  Meets.mono h hpost fun _ _ => id

/-- A step that does not fail meets every condition on failure. -/
theorem Returns.meets {post : α → σ → Prop} {fail : ε → σ → Prop} (h : Returns x s post) :
    Meets x s post fail :=
  Meets.mono h (fun _ _ => id) fun _ _ => False.elim

theorem meets_bind {post : β → σ → Prop} {fail : ε → σ → Prop} :
    Meets (x >>= f) s post fail ↔ Meets x s (fun a s' => Meets (f a) s' post fail) fail := by
  unfold Meets
  simp only [bind, EStateM.bind]
  cases x s <;> rfl

theorem meets_bind_of_eq {a : α} {s' : σ} (h : x s = .ok a s') {post : β → σ → Prop}
    {fail : ε → σ → Prop} : Meets (x >>= f) s post fail ↔ Meets (f a) s' post fail := by
  unfold Meets
  rw [bind_of_eq h]

theorem Meets.bind {m : α → σ → Prop} {post : β → σ → Prop} {fail : ε → σ → Prop}
    (hx : Meets x s m fail) (hf : ∀ a s', m a s' → Meets (f a) s' post fail) :
    Meets (x >>= f) s post fail :=
  meets_bind.mpr (hx.mono hf fun _ _ => id)

theorem Returns.bind {m : α → σ → Prop} {post : β → σ → Prop}
    (hx : Returns x s m) (hf : ∀ a s', m a s' → Returns (f a) s' post) :
    Returns (x >>= f) s post :=
  Meets.bind hx hf

@[simp] theorem meets_pure {a : α} {post : α → σ → Prop} {fail : ε → σ → Prop} :
    Meets (pure a) s post fail ↔ post a s := Iff.rfl

@[simp] theorem meets_set {t : σ} {post : PUnit → σ → Prop} {fail : ε → σ → Prop} :
    Meets (set t) s post fail ↔ post ⟨⟩ t := Iff.rfl

@[simp] theorem returns_pure {a : α} {post : α → σ → Prop} :
    Returns (pure a : EStateM ε σ α) s post ↔ post a s := Iff.rfl

@[simp] theorem returns_modify {g : σ → σ} {post : PUnit → σ → Prop} :
    Returns (modify g : EStateM ε σ PUnit) s post ↔ post ⟨⟩ (g s) := Iff.rfl

theorem returns_bind {post : β → σ → Prop} :
    Returns (x >>= f) s post ↔ Returns x s fun a s' => Returns (f a) s' post :=
  meets_bind

theorem returns_bind_of_eq {a : α} {s' : σ} (h : x s = .ok a s') {post : β → σ → Prop} :
    Returns (x >>= f) s post ↔ Returns (f a) s' post :=
  meets_bind_of_eq h

theorem returns_get_bind {f : σ → EStateM ε σ β} {post : β → σ → Prop} :
    Returns (get >>= f) s post ↔ Returns (f s) s post := Iff.rfl

theorem meets_get_bind {f : σ → EStateM ε σ β} {post : β → σ → Prop} {fail : ε → σ → Prop} :
    Meets (get >>= f) s post fail ↔ Meets (f s) s post fail := Iff.rfl

theorem Ensures.mono {post post' : α → σ → Prop} (h : Ensures x s post)
    (hpost : ∀ a s', post a s' → post' a s') : Ensures x s post' :=
  Meets.mono h hpost fun _ _ => id

/-- What is known of both ends of a step is known of its success. -/
theorem Meets.ensures {post : α → σ → Prop} {fail : ε → σ → Prop} (h : Meets x s post fail) :
    Ensures x s post :=
  h.mono (fun _ _ => id) fun _ _ _ => trivial

theorem Ensures.and {post post' : α → σ → Prop} (h : Ensures x s post) (h' : Ensures x s post') :
    Ensures x s fun a s' => post a s' ∧ post' a s' :=
  (Meets.and h h').ensures

theorem Ensures.of_ok {post : α → σ → Prop} (h : Ensures x s post) {a : α} {s' : σ}
    (hx : x s = .ok a s') : post a s' :=
  Meets.of_ok h hx

/-- A step that does not fail ends with what it returns. -/
theorem Returns.ensures {post : α → σ → Prop} (h : Returns x s post) : Ensures x s post :=
  Returns.meets h

/-- What a step that succeeds has shown as its success. -/
theorem ensures_eq : Ensures x s fun a s' => x s = .ok a s' := by
  unfold Ensures Meets
  cases x s with
  | ok a s' => rfl
  | error e s' => trivial

theorem Ensures.bind {m : α → σ → Prop} {post : β → σ → Prop} (hx : Ensures x s m)
    (hf : ∀ a s', m a s' → Ensures (f a) s' post) : Ensures (x >>= f) s post :=
  Meets.bind hx hf

@[simp] theorem ensures_pure {a : α} {post : α → σ → Prop} :
    Ensures (pure a : EStateM ε σ α) s post ↔ post a s := Iff.rfl

@[simp] theorem ensures_throw {e : ε} {post : α → σ → Prop} :
    Ensures (throw e : EStateM ε σ α) s post := trivial

theorem ensures_get_bind {f : σ → EStateM ε σ β} {post : β → σ → Prop} :
    Ensures (get >>= f) s post ↔ Ensures (f s) s post := Iff.rfl

theorem ensures_bind_of_eq {a : α} {s' : σ} (h : x s = .ok a s') {post : β → σ → Prop} :
    Ensures (x >>= f) s post ↔ Ensures (f a) s' post :=
  meets_bind_of_eq h

/-- A loop keeps what each of its steps keeps. The invariant sees what has been done and what is to
be done. -/
theorem Meets.forM {f : α → EStateM ε σ PUnit} (P : List α → List α → σ → Prop)
    {fail : ε → σ → Prop}
    (hstep : ∀ done a rest s, P done (a :: rest) s →
      Meets (f a) s (fun _ s' => P (done ++ [a]) rest s') fail) {l : List α} :
    ∀ {done : List α} {s : σ}, P done l s →
      Meets (forM l f) s (fun _ s' => P (done ++ l) [] s') fail := by
  induction l with
  | nil =>
      intro done s h
      rw [List.forM_nil, meets_pure, List.append_nil]
      exact h
  | cons a rest ih =>
      intro done s h
      rw [List.forM_cons]
      apply Meets.bind (hstep done a rest s h)
      intro _ s' h'
      have := ih h'
      rwa [List.append_assoc] at this

theorem Returns.forM {f : α → EStateM ε σ PUnit} (P : List α → List α → σ → Prop)
    (hstep : ∀ done a rest s, P done (a :: rest) s →
      Returns (f a) s fun _ s' => P (done ++ [a]) rest s') {l : List α} {done : List α} {s : σ}
    (h : P done l s) : Returns (forM l f) s fun _ s' => P (done ++ l) [] s' :=
  Meets.forM P hstep h

theorem Ensures.forM {f : α → EStateM ε σ PUnit} (P : List α → List α → σ → Prop)
    (hstep : ∀ done a rest s, P done (a :: rest) s →
      Ensures (f a) s fun _ s' => P (done ++ [a]) rest s') {l : List α} {done : List α} {s : σ}
    (h : P done l s) : Ensures (forM l f) s fun _ s' => P (done ++ l) [] s' :=
  Meets.forM P hstep h

end Stateful

/-! ## Outcomes that are computed -/

section Computed

variable {ε σ α : Type}

/-- The end of a step that succeeded. -/
def ended? : EStateM.Result ε σ α → Option (α × σ)
  | .ok a s => some (a, s)
  | .error _ _ => none

/-- The end of a step that failed. -/
def failed? : EStateM.Result ε σ α → Option (ε × σ)
  | .ok _ _ => none
  | .error e s => some (e, s)

theorem ended?_eq_some {r : EStateM.Result ε σ α} {out : α × σ} :
    ended? r = some out ↔ r = .ok out.1 out.2 := by
  cases r <;> simp [ended?, Prod.ext_iff]

theorem failed?_eq_some {r : EStateM.Result ε σ α} {out : ε × σ} :
    failed? r = some out ↔ r = .error out.1 out.2 := by
  cases r <;> simp [failed?, Prod.ext_iff]

end Computed

/-! ## Steps that keep something -/

section Keeping

variable {ε σ α β : Type} {R : σ → σ → Prop} {x : EStateM ε σ α} {s : σ}

/-- Where a step ends is related to where it begins, be it that it succeeds or that it fails. -/
def Keeps (R : σ → σ → Prop) (x : EStateM ε σ α) (s : σ) : Prop :=
  Meets x s (fun _ => R s) fun _ => R s

theorem keeps_modify {g : σ → σ} (h : R s (g s)) : Keeps R (modify g : EStateM ε σ PUnit) s := h

theorem keeps_set {t : σ} (h : R s t) : Keeps R (set t : EStateM ε σ PUnit) s := h

theorem keeps_get_bind {f : σ → EStateM ε σ β} : Keeps R (get >>= f) s ↔ Keeps R (f s) s := Iff.rfl

variable [IsPreorder σ R]

@[simp] theorem keeps_pure {a : α} : Keeps R (pure a : EStateM ε σ α) s := Std.Refl.refl s

@[simp] theorem keeps_throw {e : ε} : Keeps R (throw e : EStateM ε σ α) s := Std.Refl.refl s

theorem keeps_throw_bind {e : ε} {f : α → EStateM ε σ β} : Keeps R (throw e >>= f) s :=
  Std.Refl.refl s

theorem Keeps.bind {f : α → EStateM ε σ β} (hx : Keeps R x s) (hf : ∀ a t, Keeps R (f a) t) :
    Keeps R (x >>= f) s := by
  have hrest : ∀ a t, R s t → Meets (f a) t (fun _ => R s) fun _ => R s := fun a t h =>
    (hf a t).mono (fun _ _ => IsTrans.trans _ _ _ h) fun _ _ => IsTrans.trans _ _ _ h
  exact Meets.bind hx hrest

theorem Keeps.forM {f : α → EStateM ε σ PUnit} (hf : ∀ a t, Keeps R (f a) t) (l : List α) :
    ∀ s, Keeps R (forM l f) s := by
  induction l with
  | nil => exact fun s => keeps_pure
  | cons a rest ih =>
      intro s
      rw [List.forM_cons]
      exact (hf a s).bind fun _ => ih

theorem Keeps.mapM {f : α → EStateM ε σ β} (hf : ∀ a t, Keeps R (f a) t) (l : List α) :
    ∀ s, Keeps R (l.mapM f) s := by
  induction l with
  | nil => exact fun s => keeps_pure
  | cons a rest ih =>
      intro s
      rw [List.mapM_cons]
      exact (hf a s).bind fun b t => (ih t).bind fun bs t => keeps_pure

end Keeping

end QubitMapper
