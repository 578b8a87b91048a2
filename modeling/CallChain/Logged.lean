import CallChain.Event

namespace CallChain

structure Logged (ε α : Type) where
  log : List Event
  outcome : Except ε α

namespace Logged

variable {ε α β γ : Type}

def done (a : α) : Logged ε α := ⟨[], .ok a⟩

def fail (e : ε) : Logged ε α := ⟨[], .error e⟩

def event (e : Event) : Logged ε Unit := ⟨[e], .ok ()⟩

def ofExcept (r : Except ε α) : Logged ε α := ⟨[], r⟩

def andThen (x : Logged ε α) (f : α → Logged ε β) : Logged ε β :=
  match x.outcome with
  | .ok a => ⟨x.log ++ (f a).log, (f a).outcome⟩
  | .error e => ⟨x.log, .error e⟩

instance : Monad (Logged ε) where
  pure := done
  bind := andThen

theorem pure_eq (a : α) : (pure a : Logged ε α) = ⟨[], .ok a⟩ := rfl

theorem bind_ok (log : List Event) (a : α) (f : α → Logged ε β) :
    (⟨log, .ok a⟩ : Logged ε α) >>= f = ⟨log ++ (f a).log, (f a).outcome⟩ := rfl

theorem bind_error (log : List Event) (e : ε) (f : α → Logged ε β) :
    (⟨log, .error e⟩ : Logged ε α) >>= f = ⟨log, .error e⟩ := rfl

theorem id_map (x : Logged ε α) : id <$> x = x := by
  rcases x with ⟨log, _ | a⟩ <;> simp [Functor.map, andThen, done]

theorem pure_bind (a : α) (f : α → Logged ε β) : pure a >>= f = f a := by
  simp [pure_eq, bind_ok]

theorem bind_assoc (x : Logged ε α) (f : α → Logged ε β) (g : β → Logged ε γ) :
    x >>= f >>= g = x >>= fun a ↦ f a >>= g := by
  rcases x with ⟨log, _ | a⟩
  · rfl
  · simp only [bind_ok]
    rcases f a with ⟨log', _ | b⟩
    · rfl
    · simp [bind_ok]

instance : LawfulMonad (Logged ε) := .mk' _ id_map pure_bind bind_assoc

@[simp] theorem outcome_pure (a : α) : (pure a : Logged ε α).outcome = .ok a := rfl

@[simp] theorem outcome_bind (x : Logged ε α) (f : α → Logged ε β) :
    (x >>= f).outcome = x.outcome >>= fun a ↦ (f a).outcome := by
  rcases x with ⟨log, _ | a⟩ <;> rfl

@[simp] theorem log_pure (a : α) : (pure a : Logged ε α).log = [] := rfl

section Attach

variable {m : Type → Type} [Monad m]

theorem mapM_option_attach (o : Option α) (f : α → m β) :
    o.attach.mapM (fun x ↦ f x.1) = o.mapM f := by
  cases o <;> rfl

theorem mapM_list_attach [LawfulMonad m] (l : List α) (f : α → m β) :
    l.attach.mapM (fun x ↦ f x.1) = l.mapM f := by
  rw [List.mapM_subtype fun _ _ ↦ rfl, List.unattach_attach]

end Attach

end Logged

end CallChain
