import WeirdVault.Billing.Behaviour

/-! # What a request does to the tables -/

namespace WeirdVault.Billing

open WeirdVault.Framework

/-- Whether the request took effect, which its caller need not hear. -/
def executed {α : Type} : Except Thrown α → Bool
  | .ok _ => true
  | .error .lost => true
  | .error (.died b) => b
  | .error _ => false

def Said (log : Log) (i : ℕ) (r : Request) (x : r.Ans) : Prop := (transcript log i).Has r x

section

variable (m : Moment) (s : Store)

private theorem execute_cases (r : Request) :
    (∃ x, (execute m s r).2 = .ok x) ∨ (execute m s r).1 = s ∧
      ((execute m s r).2 = .error .missing ∨ (execute m s r).2 = .error .foreignKey) := by
  cases r with
  | claimEvent id type =>
    simp only [execute]
    split <;> exact .inl ⟨_,rfl⟩
  | upsertSubscription row =>
    simp only [execute]
    split
    · exact .inl ⟨_,rfl⟩
    · exact .inr ⟨rfl,.inr rfl⟩
  | insertSubscription row =>
    simp only [execute]
    split
    · exact .inl ⟨_,rfl⟩
    · split
      · exact .inl ⟨_,rfl⟩
      · exact .inr ⟨rfl,.inr rfl⟩
  | retrieve id granting =>
    simp only [execute]
    split
    · exact .inl ⟨_,rfl⟩
    · exact .inr ⟨rfl,.inl rfl⟩
  | cancel id =>
    simp only [execute]
    split
    · exact .inl ⟨_,rfl⟩
    · exact .inr ⟨rfl,.inl rfl⟩
  | complete n subscription =>
    simp only [execute]
    split
    · split <;> exact .inl ⟨_,rfl⟩
    · exact .inl ⟨_,rfl⟩
  | change subscription =>
    simp only [execute]
    split <;> exact .inl ⟨_,rfl⟩
  | _ => exact .inl ⟨_,rfl⟩

private theorem hears_ok {α : Type} {f : Fate} (hf : f ≠ .died false) (certain : Bool) (x : α) :
    executed (f.hears certain (.ok x)) = true ∧ ∀ y, f.hears certain (.ok x) = .ok y → y = x := by
  have hself : ∀ y, (.ok x : Except Thrown α) = .ok y → y = x := fun y h => (Except.ok.inj h).symm
  cases f with
  | lost =>
    cases certain with
    | true => exact ⟨rfl,hself⟩
    | false => exact ⟨rfl,fun y h => by cases h⟩
  | died b => exact ⟨rfl,fun y h => by cases h⟩
  | _ => exact ⟨rfl,hself⟩

private theorem hears_error {α : Type} (f : Fate) (certain : Bool) {e : Thrown}
    (he : executed (.error e : Except Thrown α) = false) :
    executed (f.hears certain (.error e : Except Thrown α)) = false ∧
      ∀ y, f.hears certain (.error e : Except Thrown α) ≠ .ok y := by
  cases f with
  | died b => exact ⟨rfl,fun y h => by cases h⟩
  | _ => exact ⟨he,fun y h => by cases h⟩

/-- A request that took effect was executed well, and what its caller hears is its answer. -/
theorem exec_cases (r : Request) :
    executed (exec m s r).2 = false ∧ (exec m s r).1 = s ∧ (∀ x, (exec m s r).2 ≠ .ok x) ∨
      executed (exec m s r).2 = true ∧ (exec m s r).1 = (execute m s r).1 ∧
        ∃ x, (execute m s r).2 = .ok x ∧ ∀ y, (exec m s r).2 = .ok y → y = x := by
  unfold exec
  split
  · exact .inl ⟨rfl,rfl,fun x h => by cases h⟩
  · rename_i hdied
    split
    · exact .inl ⟨rfl,rfl,fun x h => by cases h⟩
    · rcases execute_cases m s r with ⟨x,hx⟩ | ⟨hsame,hx | hx⟩
      · have h := hears_ok hdied r.certain x
        rw [hx]
        exact .inr ⟨h.1,rfl,x,rfl,h.2⟩
      · have h := hears_error (α := r.Val) m.fate r.certain (e := .missing) rfl
        rw [hx]
        exact .inl ⟨h.1,hsame,h.2⟩
      · have h := hears_error (α := r.Val) m.fate r.certain (e := .foreignKey) rfl
        rw [hx]
        exact .inl ⟨h.1,hsame,h.2⟩

/-- The mirror is written by upserts and by the first row of a customer, for users that there are,
and a user takes the row along. -/
theorem rows_exec (r : Request) :
    ((exec m s r).1.users = s.users ∧ (exec m s r).1.subscription = s.subscription ∧
      ∀ row, r = .upsertSubscription row → executed (exec m s r).2 = false) ∨
    (∃ row, r = .upsertSubscription row ∧ executed (exec m s r).2 = true ∧ row.userId ∈ s.users ∧
      (exec m s r).1.users = s.users ∧ (exec m s r).1.subscription = s.subscription.put row) ∨
    (∃ row, r = .insertSubscription row ∧ s.subscription.get? row.userId = none ∧
      row.userId ∈ s.users ∧ (exec m s r).1.users = s.users ∧
      (exec m s r).1.subscription = s.subscription.put row) ∨
    ∃ userId, r = .deleteUser userId ∧ (exec m s r).1.users = s.users.filter (· ≠ userId) ∧
      (exec m s r).1.subscription = s.subscription.erase userId := by
  rcases exec_cases m s r with ⟨hno,hsame,_⟩ | ⟨hyes,hexec,x,hx,_⟩
  · rw [hsame]
    exact .inl ⟨rfl,rfl,fun _ _ => hno⟩
  · rw [hexec]
    cases r with
    | upsertSubscription row =>
      by_cases huser : row.userId ∈ s.users
      · refine .inr (.inl ⟨row,rfl,hyes,huser,?_⟩)
        simp only [execute,if_pos huser,and_self]
      · simp only [execute,if_neg huser] at hx
        cases hx
    | insertSubscription row =>
      cases hget : s.subscription.get? row.userId with
      | some old =>
        left
        simp only [execute,hget,Option.isSome_some,if_true]
        exact ⟨trivial,trivial,fun _ h => by cases h⟩
      | none =>
        by_cases huser : row.userId ∈ s.users
        · refine .inr (.inr (.inl ⟨row,rfl,hget,huser,?_⟩))
          simp [execute,hget,huser]
        · simp [execute,hget,huser] at hx
    | deleteUser userId => exact .inr (.inr (.inr ⟨userId,rfl,rfl,rfl⟩))
    | claimEvent id type =>
      left
      simp only [execute]
      split <;> exact ⟨rfl,rfl,fun _ h => by cases h⟩
    | retrieve id granting =>
      left
      simp only [execute]
      split <;> exact ⟨rfl,rfl,fun _ h => by cases h⟩
    | cancel id =>
      left
      simp only [execute]
      split <;> exact ⟨rfl,rfl,fun _ h => by cases h⟩
    | complete n subscription =>
      left
      simp only [execute]
      split
      · split <;> exact ⟨rfl,rfl,fun _ h => by cases h⟩
      · exact ⟨rfl,rfl,fun _ h => by cases h⟩
    | change subscription =>
      left
      simp only [execute]
      split <;> exact ⟨rfl,rfl,fun _ h => by cases h⟩
    | _ => exact .inl ⟨rfl,rfl,fun _ h => by cases h⟩

theorem users_exec {r : Request} {userId : String} (h : userId ∈ (exec m s r).1.users) :
    userId ∈ s.users := by
  rcases rows_exec m s r with ⟨he,_⟩ | ⟨_,_,_,_,he,_⟩ | ⟨_,_,_,_,he,_⟩ | ⟨_,_,he,_⟩
  · rwa [he] at h
  · rwa [he] at h
  · rwa [he] at h
  · rw [he] at h
    exact (List.mem_filter.mp h).1

theorem subscriptionFor_ok {userId : String} {row : Option Row}
    (h : (exec m s (.subscriptionFor userId)).2 = .ok row) : row = s.subscription.get? userId := by
  rcases exec_cases m s (.subscriptionFor userId) with ⟨_,_,hno⟩ | ⟨_,_,x,hx,hok⟩
  · exact absurd h (hno row)
  · rw [hok row h]
    exact (Except.ok.inj hx).symm

end

end WeirdVault.Billing
