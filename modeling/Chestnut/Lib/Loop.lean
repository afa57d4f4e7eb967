import Mathlib.Init

/-!
# Loops that may not end

A `while` loop whose body may fault and may itself contain such loops. The
executable form is cut off by fuel, `none` meaning that it still runs; the
relation `Ends` says what a run that is not cut off comes to. Whether a loop
ends, and in which state, is proved by induction over `Ends` or over the data
the loop walks.
-/

namespace Chestnut.Lib

variable {σ ε α : Type}

/-- A computation cut off by fuel: more fuel does not change a result. -/
def FuelMono (run : Nat → Option α) : Prop :=
  ∀ n k r, n ≤ k → run n = some r → run k = some r

theorem fuelMono_of_succ {run : Nat → Option α}
    (h : ∀ n r, run n = some r → run (n + 1) = some r) : FuelMono run := by
  intro n k r hle hr
  induction hle with
  | refl => exact hr
  | step _ ih => exact h _ _ ih

theorem fuelMono_const (o : Option α) : FuelMono fun _ => o :=
  fun _ _ _ _ h => h

/-- Go on with the result of a computation that has come to an end without a fault. -/
def andThen {β : Type} (x : Option (Except ε α)) (k : α → Option (Except ε β)) :
    Option (Except ε β) :=
  match x with
  | none => none
  | some (.error e) => some (.error e)
  | some (.ok a) => k a

@[simp] theorem andThen_error {β : Type} (e : ε) (k : α → Option (Except ε β)) :
    andThen (some (.error e)) k = some (.error e) := rfl

@[simp] theorem andThen_ok {β : Type} (a : α) (k : α → Option (Except ε β)) :
    andThen (some (.ok a)) k = k a := rfl

theorem andThen_eq_some {β : Type} {x : Option (Except ε α)} {k : α → Option (Except ε β)}
    {r : Except ε β} (h : andThen x k = some r) :
    (∃ e, x = some (.error e) ∧ r = .error e) ∨ ∃ a, x = some (.ok a) ∧ k a = some r := by
  cases x with
  | none => cases h
  | some o =>
      cases o with
      | error e =>
          cases h
          exact .inl ⟨e, rfl, rfl⟩
      | ok a => exact .inr ⟨a, rfl, h⟩

theorem andThen_eq_ok {β : Type} {x : Option (Except ε α)} {k : α → Option (Except ε β)} {b : β}
    (h : andThen x k = some (.ok b)) : ∃ a, x = some (.ok a) ∧ k a = some (.ok b) := by
  rcases andThen_eq_some h with ⟨e, -, he⟩ | ha
  · cases he
  · exact ha

theorem fuelMono_andThen {β : Type} {x : Nat → Option (Except ε α)}
    {k : Nat → α → Option (Except ε β)} (hx : FuelMono x) (hk : ∀ a, FuelMono fun n => k n a) :
    FuelMono fun n => andThen (x n) (k n) := by
  intro n l r hle h
  rcases andThen_eq_some h with ⟨e, hxn, rfl⟩ | ⟨a, hxn, hka⟩
  · simp only [hx n l _ hle hxn, andThen_error]
  · simp only [hx n l _ hle hxn, andThen_ok]
    exact hk a n l r hle hka

/-- `while (guard(s)) body(s)`, for at most `fuel` turns. -/
def whileLoop (guard : σ → Bool) (body : Nat → σ → Option (Except ε σ)) :
    Nat → σ → Option (Except ε σ)
  | 0, s => if guard s then none else some (.ok s)
  | n + 1, s =>
      if guard s then andThen (body n s) (whileLoop guard body n) else some (.ok s)

/-- The loop from `s` ends with `r`. -/
inductive Ends (guard : σ → Bool) (body : Nat → σ → Option (Except ε σ)) :
    σ → Except ε σ → Prop
  | done {s : σ} (hg : guard s = false) : Ends guard body s (.ok s)
  | fault {s : σ} {e : ε} {n : Nat} (hg : guard s = true) (hb : body n s = some (.error e)) :
      Ends guard body s (.error e)
  | turn {s s' : σ} {r : Except ε σ} {n : Nat} (hg : guard s = true)
      (hb : body n s = some (.ok s')) (next : Ends guard body s' r) : Ends guard body s r

variable {guard : σ → Bool} {body : Nat → σ → Option (Except ε σ)} {s : σ} {r : Except ε σ}

theorem whileLoop_of_not (hg : guard s = false) (n : Nat) :
    whileLoop guard body n s = some (.ok s) := by
  cases n <;> simp [whileLoop, hg]

theorem whileLoop_succ (hg : guard s = true) (n : Nat) :
    whileLoop guard body (n + 1) s = andThen (body n s) (whileLoop guard body n) := by
  simp [whileLoop, hg]

theorem whileLoop_zero (hg : guard s = true) : whileLoop guard body 0 s = none := by
  simp [whileLoop, hg]

/-- A run that came to an end did so in the sense of `Ends`. -/
theorem ends_of_whileLoop {n : Nat} (h : whileLoop guard body n s = some r) :
    Ends guard body s r := by
  induction n generalizing s with
  | zero =>
      cases hg : guard s with
      | false =>
          rw [whileLoop_of_not hg] at h
          cases h
          exact .done hg
      | true =>
          rw [whileLoop_zero hg] at h
          cases h
  | succ n ih =>
      cases hg : guard s with
      | false =>
          rw [whileLoop_of_not hg] at h
          cases h
          exact .done hg
      | true =>
          rw [whileLoop_succ hg] at h
          rcases andThen_eq_some h with ⟨e, hb, rfl⟩ | ⟨s', hb, hrest⟩
          · exact .fault hg hb
          · exact .turn hg hb (ih hrest)

theorem whileLoop_mono (hbody : ∀ s, FuelMono fun n => body n s) (s : σ) :
    FuelMono fun n => whileLoop guard body n s := by
  apply fuelMono_of_succ
  intro n r h
  induction n generalizing s with
  | zero =>
      cases hg : guard s with
      | false =>
          rw [whileLoop_of_not hg] at h ⊢
          exact h
      | true =>
          rw [whileLoop_zero hg] at h
          cases h
  | succ n ih =>
      cases hg : guard s with
      | false =>
          rw [whileLoop_of_not hg] at h ⊢
          exact h
      | true =>
          rw [whileLoop_succ hg] at h ⊢
          rcases andThen_eq_some h with ⟨e, hb, rfl⟩ | ⟨s', hb, hrest⟩
          · have hb' : body (n + 1) s = some (.error e) := hbody s n (n + 1) _ n.le_succ hb
            rw [hb', andThen_error]
          · have hb' : body (n + 1) s = some (.ok s') := hbody s n (n + 1) _ n.le_succ hb
            rw [hb', andThen_ok]
            exact ih s' hrest

/-- What `Ends` says is what every long enough run returns. -/
theorem Ends.whileLoop (hbody : ∀ s, FuelMono fun n => body n s) (h : Ends guard body s r) :
    ∃ n, ∀ k, n ≤ k → whileLoop guard body k s = some r := by
  suffices hrun : ∃ n, Lib.whileLoop guard body n s = some r by
    obtain ⟨n, hn⟩ := hrun
    exact ⟨n, fun k hk => whileLoop_mono hbody s n k r hk hn⟩
  induction h with
  | done hg => exact ⟨0, whileLoop_of_not hg 0⟩
  | @fault s e n hg hb =>
      refine ⟨n + 1, ?_⟩
      rw [whileLoop_succ hg, hb]
      rfl
  | @turn s s' r n hg hb _ ih =>
      obtain ⟨k, hk⟩ := ih
      refine ⟨max n k + 1, ?_⟩
      have hb' : body (max n k) s = some (.ok s') :=
        hbody s n (max n k) _ (Nat.le_max_left n k) hb
      rw [whileLoop_succ hg, hb']
      exact whileLoop_mono hbody s' k (max n k) r (Nat.le_max_right n k) hk

theorem exists_whileLoop_iff (hbody : ∀ s, FuelMono fun n => body n s) :
    (∃ n, Lib.whileLoop guard body n s = some r) ↔ Ends guard body s r := by
  constructor
  · rintro ⟨n, hn⟩
    exact ends_of_whileLoop hn
  · intro h
    obtain ⟨n, hn⟩ := h.whileLoop hbody
    exact ⟨n, hn n (Nat.le_refl n)⟩

/-- A body that neither faults nor loops. -/
def pureBody (f : σ → σ) : Nat → σ → Option (Except ε σ) := fun _ s => some (.ok (f s))

theorem fuelMono_pureBody (f : σ → σ) (s : σ) :
    FuelMono fun n => (pureBody f n s : Option (Except ε σ)) :=
  fuelMono_const _

/-- A loop whose guard stays true ends only by a fault of its body. -/
theorem Ends.error_of_guard {P : σ → Prop} (h : Ends guard body s r)
    (hg : ∀ s, P s → guard s = true)
    (hbody : ∀ s n s', P s → body n s = some (.ok s') → P s') (hP : P s) :
    ∃ n s' e, P s' ∧ body n s' = some (.error e) ∧ r = .error e := by
  induction h with
  | done hg' =>
      rw [hg _ hP] at hg'
      cases hg'
  | fault _ hb => exact ⟨_, _, _, hP, hb, rfl⟩
  | turn _ hb _ ih => exact ih (hbody _ _ _ hP hb)

/-! ### Postconditions -/

section Meets

variable {β : Type} {Q : α → Prop} {R : β → Prop} {E : ε → Prop}

/-- A result satisfies `Q`, a fault satisfies `E`. -/
structure Meets (x : Except ε α) (Q : α → Prop) (E : ε → Prop) : Prop where
  ok : ∀ a, x = .ok a → Q a
  error : ∀ e, x = .error e → E e

@[simp] theorem meets_ok {a : α} : Meets (.ok a) Q E ↔ Q a :=
  ⟨fun h => h.ok a rfl, fun h => ⟨(fun _ heq => by cases heq; exact h), fun _ heq => by cases heq⟩⟩

@[simp] theorem meets_error {e : ε} : Meets (.error e : Except ε α) Q E ↔ E e :=
  ⟨fun h => h.error e rfl,
    fun h => ⟨(fun _ heq => by cases heq), fun _ heq => by cases heq; exact h⟩⟩

/-- The only result there is. -/
theorem Meets.eq_ok {x : Except ε α} {a : α} (h : Meets x (· = a) fun _ => False) : x = .ok a := by
  cases x with
  | error e => exact (h.error e rfl).elim
  | ok b => rw [h.ok b rfl]

theorem Meets.imp {x : Except ε α} {Q' : α → Prop} {E' : ε → Prop} (h : Meets x Q E)
    (hQ : ∀ a, Q a → Q' a) (hE : ∀ e, E e → E' e) : Meets x Q' E' :=
  ⟨fun a ha => hQ a (h.ok a ha), fun e he => hE e (h.error e he)⟩

theorem Meets.bind {x : Except ε α} {f : α → Except ε β} (h : Meets x Q E)
    (hf : ∀ a, Q a → Meets (f a) R E) : Meets (x >>= f) R E := by
  cases x with
  | error e => exact meets_error.mpr (meets_error.mp h)
  | ok a => exact hf a (meets_ok.mp h)

/-- With enough fuel the computation comes to an end, as `Q` and `E` say. -/
def Returns (run : Nat → Option (Except ε α)) (Q : α → Prop) (E : ε → Prop) : Prop :=
  ∃ n r, run n = some r ∧ Meets r Q E

theorem returns_const {x : Except ε α} (h : Meets x Q E) : Returns (fun _ => some x) Q E :=
  ⟨0, x, rfl, h⟩

theorem Returns.imp {run : Nat → Option (Except ε α)} {Q' : α → Prop} {E' : ε → Prop}
    (h : Returns run Q E) (hQ : ∀ a, Q a → Q' a) (hE : ∀ e, E e → E' e) : Returns run Q' E' := by
  obtain ⟨n, r, hr, hm⟩ := h
  exact ⟨n, r, hr, hm.imp hQ hE⟩

theorem Returns.eventually {run : Nat → Option (Except ε α)} (h : Returns run Q E)
    (hmono : FuelMono run) : ∃ n, ∀ k, n ≤ k → ∃ r, run k = some r ∧ Meets r Q E := by
  obtain ⟨n, r, hr, hm⟩ := h
  exact ⟨n, fun k hk => ⟨r, hmono n k r hk hr, hm⟩⟩

/-- What one run comes to, all do. -/
theorem Returns.meets {run : Nat → Option (Except ε α)} (h : Returns run Q E)
    (hmono : FuelMono run) {n : Nat} {r : Except ε α} (hr : run n = some r) : Meets r Q E := by
  obtain ⟨k, r', hr', hm⟩ := h
  have hmax := hmono k (max n k) r' (Nat.le_max_right n k) hr'
  rw [hmono n (max n k) r (Nat.le_max_left n k) hr] at hmax
  cases hmax
  exact hm

/-- A run that is seen to return meets what is known of all runs with enough fuel. -/
theorem exists_ok_of_eventually {run : Nat → Option (Except ε α)}
    (h : ∃ n, ∀ k, n ≤ k → ∃ r, run k = some r ∧ Meets r Q E) (hmono : FuelMono run) {n : Nat}
    (hrun : (run n).any Except.isOk = true) : ∃ a, run n = some (.ok a) ∧ Q a := by
  obtain ⟨k, hk⟩ := h
  obtain ⟨r', hr', hm⟩ := hk k (Nat.le_refl k)
  cases hr : run n with
  | none =>
      rw [hr] at hrun
      cases hrun
  | some r =>
      have hmeets := Returns.meets ⟨k, r', hr', hm⟩ hmono hr
      rw [hr] at hrun
      cases r with
      | error e => cases hrun
      | ok a => exact ⟨a, rfl, hmeets.ok a rfl⟩

theorem Returns.andThen {x : Nat → Option (Except ε α)} {k : Nat → α → Option (Except ε β)}
    (h : Returns x Q E) (hx : FuelMono x) (hk : ∀ a, FuelMono fun n => k n a)
    (hnext : ∀ a, Q a → Returns (fun n => k n a) R E) :
    Returns (fun n => andThen (x n) (k n)) R E := by
  obtain ⟨n, o, hn, hm⟩ := h
  cases o with
  | error e =>
      refine ⟨n, .error e, ?_, meets_error.mpr (meets_error.mp hm)⟩
      simp only [hn, andThen_error]
  | ok a =>
      obtain ⟨l, r, hl, hr⟩ := hnext a (meets_ok.mp hm)
      refine ⟨max n l, r, ?_, hr⟩
      simp only [hx n (max n l) _ (Nat.le_max_left n l) hn, andThen_ok]
      exact hk a l (max n l) r (Nat.le_max_right n l) hl

/-- The loop comes to an end, as `Q` and `E` say. -/
def Settles (guard : σ → Bool) (body : Nat → σ → Option (Except ε σ)) (s : σ) (Q : σ → Prop)
    (E : ε → Prop) : Prop :=
  ∃ r, Ends guard body s r ∧ Meets r Q E

variable {Q : σ → Prop}

theorem Settles.done (hg : guard s = false) (hQ : Q s) : Settles guard body s Q E :=
  ⟨.ok s, .done hg, meets_ok.mpr hQ⟩

/-- One turn, and what is left of the loop behind it. -/
theorem Settles.turn (hg : guard s = true)
    (h : Returns (fun n => body n s) (fun s' => Settles guard body s' Q E) E) :
    Settles guard body s Q E := by
  obtain ⟨n, o, hn, hm⟩ := h
  cases o with
  | error e => exact ⟨.error e, .fault hg hn, meets_error.mpr (meets_error.mp hm)⟩
  | ok s' =>
      obtain ⟨r, hends, hr⟩ := meets_ok.mp hm
      exact ⟨r, .turn hg hn hends, hr⟩

theorem Settles.returns (hbody : ∀ s, FuelMono fun n => body n s) (h : Settles guard body s Q E) :
    Returns (fun n => whileLoop guard body n s) Q E := by
  obtain ⟨r, hends, hm⟩ := h
  obtain ⟨n, hn⟩ := hends.whileLoop hbody
  exact ⟨n, r, hn n (Nat.le_refl n), hm⟩

end Meets

/-! ### Counted loops -/

/-- `for (i = 0; i < n; i++) body(i)`. -/
def forLoop (body : Nat → σ → Except ε σ) : Nat → σ → Except ε σ
  | 0, s => .ok s
  | n + 1, s => do
      let s ← forLoop body n s
      body n s

/-- The invariant rule: `I i` holds before turn `i`. -/
theorem forLoop_inv {body : Nat → σ → Except ε σ} (I : Nat → σ → Prop) {n : Nat} (h₀ : I 0 s)
    (hstep : ∀ i < n, ∀ s, I i s → ∃ s', body i s = .ok s' ∧ I (i + 1) s') :
    ∃ s', forLoop body n s = .ok s' ∧ I n s' := by
  induction n with
  | zero => exact ⟨s, rfl, h₀⟩
  | succ n ih =>
      obtain ⟨s₁, hrun, hI⟩ := ih fun i hi => hstep i (Nat.lt_succ_of_lt hi)
      obtain ⟨s₂, hbody, hI'⟩ := hstep n (Nat.lt_succ_self n) s₁ hI
      refine ⟨s₂, ?_, hI'⟩
      rw [forLoop, hrun]
      exact hbody

end Chestnut.Lib
