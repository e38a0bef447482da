import Mathlib.Tactic
import OpcodeRecovery.Error

/-!
Computations that may fail, taken apart: a sequence of steps succeeds exactly if each step
does, on what the steps before it returned.

`FailsBy P` says of a computation that it fails with an error of the kind `P`, if it fails at all;
`Faulty`, that it fails with a fault in the bytes. The sequence of such computations is one.
-/

namespace OpcodeRecovery

variable {α β : Type}

@[simp] lemma ok_bind (a : α) (f : α → Except Error β) : (Except.ok a >>= f) = f a := rfl

@[simp] lemma pure_eq_ok (a : α) : (pure a : Except Error α) = .ok a := rfl

/-- A sequence succeeds exactly if its first step does and the rest does on its value. -/
lemma bind_eq_ok_iff {x : Except Error α} {f : α → Except Error β} {b : β} :
    (x >>= f) = .ok b ↔ ∃ a, x = .ok a ∧ f a = .ok b := by
  cases x with
  | error e =>
      constructor
      · intro h
        cases h
      · rintro ⟨a, ha, -⟩
        cases ha
  | ok a =>
      constructor
      · intro h
        exact ⟨a, rfl, h⟩
      · rintro ⟨a', ha, h⟩
        cases ha
        exact h

/-- A sequence fails where its first step does, or where the rest does on its value. -/
lemma bind_eq_error {x : Except Error α} {f : α → Except Error β} {e : Error}
    (h : (x >>= f) = .error e) : x = .error e ∨ ∃ a, x = .ok a ∧ f a = .error e := by
  cases x with
  | error e' =>
      cases h
      exact .inl rfl
  | ok a => exact .inr ⟨a, rfl, h⟩

@[simp] lemma require_some (fault : Fault) (a : α) : require fault (some a) = .ok a := rfl

/-- A required read succeeds exactly if there is something to read. -/
lemma require_eq_ok_iff {fault : Fault} {x : Option α} {a : α} :
    require fault x = .ok a ↔ x = some a := by
  cases x with
  | none => constructor <;> (intro h; cases h)
  | some b => simp

lemma reject_ne_ok {fault : Fault} {a : α} : reject fault ≠ Except.ok a := by
  intro h
  cases h

/-- A step for each member of a list: all of them succeed, and the results correspond. -/
lemma mapM_eq_ok_iff {f : α → Except Error β} {as : List α} {bs : List β} :
    as.mapM f = .ok bs ↔ List.Forall₂ (fun a b => f a = .ok b) as bs := by
  induction as generalizing bs with
  | nil =>
      rw [List.mapM_nil, pure_eq_ok, Except.ok.injEq, List.forall₂_nil_left_iff]
      exact eq_comm
  | cons a as ih =>
      rw [List.mapM_cons, bind_eq_ok_iff, List.forall₂_cons_left_iff]
      constructor
      · rintro ⟨b, hb, h⟩
        obtain ⟨bs', hbs', h⟩ := bind_eq_ok_iff.mp h
        exact ⟨b, bs', hb, ih.mp hbs', (Except.ok.inj h).symm⟩
      · rintro ⟨b, bs', hb, hbs', rfl⟩
        exact ⟨b, hb, bind_eq_ok_iff.mpr ⟨bs', ih.mpr hbs', rfl⟩⟩

/-- Where a step for each member of a list fails, it fails for one of them. -/
lemma exists_mem_of_mapM_eq_error {f : α → Except Error β} {as : List α} {e : Error}
    (h : as.mapM f = .error e) : ∃ a ∈ as, f a = .error e := by
  induction as with
  | nil => cases h
  | cons a as ih =>
      rw [List.mapM_cons] at h
      rcases bind_eq_error h with ha | ⟨b, -, h⟩
      · exact ⟨a, List.mem_cons_self, ha⟩
      · rcases bind_eq_error h with has | ⟨bs, -, h⟩
        · obtain ⟨a', ha', hfail⟩ := ih has
          exact ⟨a', List.mem_cons_of_mem a ha', hfail⟩
        · cases h

/-- In lists that correspond, whatever stands in the second corresponds to something in the
first. -/
lemma exists_mem_of_forall₂ {R : α → β → Prop} {as : List α} {bs : List β}
    (h : List.Forall₂ R as bs) {b : β} (hb : b ∈ bs) : ∃ a ∈ as, R a b := by
  induction h with
  | nil => cases hb
  | @cons a b' as bs hab _ ih =>
      rcases List.mem_cons.mp hb with rfl | hb
      · exact ⟨a, List.mem_cons_self, hab⟩
      · obtain ⟨a', ha', hab'⟩ := ih hb
        exact ⟨a', List.mem_cons_of_mem a ha', hab'⟩

/-! ### How computations fail -/

/-- The computation fails with an error of the given kind, if it fails at all. -/
def FailsBy (P : Error → Prop) (x : Except Error α) : Prop := ∀ e, x = .error e → P e

namespace FailsBy

variable {P Q : Error → Prop} {fault : Fault}

lemma ok (a : α) : FailsBy P (.ok a) := fun _ h => by cases h

lemma reject (h : P (.format fault)) : FailsBy P (reject fault : Except Error α) := by
  intro e he
  cases he
  exact h

lemma require (h : P (.format fault)) (x : Option α) : FailsBy P (require fault x) := by
  cases x with
  | none => exact reject h
  | some a => exact ok a

lemma bind {x : Except Error α} {f : α → Except Error β} (hx : FailsBy P x)
    (hf : ∀ a, FailsBy P (f a)) : FailsBy P (x >>= f) := by
  cases x with
  | error e =>
      intro e' h
      cases h
      exact hx e rfl
  | ok a => exact hf a

lemma mapM {f : α → Except Error β} (hf : ∀ a, FailsBy P (f a)) (as : List α) :
    FailsBy P (as.mapM f) := by
  induction as with
  | nil => exact ok []
  | cons a as ih =>
      rw [List.mapM_cons]
      exact (hf a).bind fun b => ih.bind fun bs => ok (b :: bs)

lemma mono {x : Except Error α} (h : FailsBy P x) (hPQ : ∀ e, P e → Q e) : FailsBy Q x :=
  fun e he => hPQ e (h e he)

end FailsBy

/-- The computation fails with a fault in the bytes, if it fails at all. -/
def Faulty (x : Except Error α) : Prop := ∀ e, x = .error e → ∃ fault, e = .format fault

namespace Faulty

lemma ok (a : α) : Faulty (.ok a) := FailsBy.ok a

lemma reject (fault : Fault) : Faulty (reject fault : Except Error α) := FailsBy.reject ⟨fault, rfl⟩

lemma require (fault : Fault) (x : Option α) : Faulty (require fault x) :=
  FailsBy.require ⟨fault, rfl⟩ x

lemma bind {x : Except Error α} {f : α → Except Error β} (hx : Faulty x)
    (hf : ∀ a, Faulty (f a)) : Faulty (x >>= f) :=
  FailsBy.bind hx hf

end Faulty

end OpcodeRecovery
