/- Runs of programs against a state, what holds of all their runs, and tasks that may throw. -/

import GraniteDb.Lib.Program

set_option linter.dupNamespace false

namespace GraniteDb.Lib.Task

open Lib.Program

universe u v w y

variable {ρ : Type u} {reply : ρ → Type v} {α β : Type w} {σ : Type y}

section Runs

/-- What answers the requests of a program: the requests it permits in a state, and its answers. -/
structure System (ρ : Type u) (reply : ρ → Type v) (σ : Type y) where
  permits : σ → ρ → Prop
  answers : σ → (r : ρ) → reply r → σ → Prop

variable (system : System ρ reply σ)

inductive Runs : Program reply α → σ → α → σ → Prop
  | ret (a : α) (s : σ) : Runs (.ret a) s a s
  | request {r : ρ} {next : reply r → Program reply α} {s s' s'' : σ} {b : reply r} {a : α} :
      system.answers s r b s' → Runs (next b) s' a s'' → Runs (.request r next) s a s''

inductive Violates : Program reply α → σ → Prop
  | here {r : ρ} {next : reply r → Program reply α} {s : σ} :
      ¬ system.permits s r → Violates (.request r next) s
  | later {r : ρ} {next : reply r → Program reply α} {s s' : σ} {b : reply r} :
      system.answers s r b s' → Violates (next b) s' → Violates (.request r next) s

/-- However its requests are answered, the program makes permitted requests and ends only where
`post` holds. -/
def Keeps : Program reply α → σ → (α → σ → Prop) → Prop
  | .ret a, s, post => post a s
  | .request r next, s, post =>
    system.permits s r ∧ ∀ b s', system.answers s r b s' → Keeps (next b) s' post

variable {system}

variable {s : σ} {post : α → σ → Prop} {p : Program reply α}

theorem Keeps.of_run {s' : σ} {a : α} (keeps : Keeps system p s post) (run : Runs system p s a s') :
    post a s' := by
  induction run with
  | ret a s => exact keeps
  | request answered _ ih => exact ih (keeps.2 _ _ answered)

theorem Keeps.not_violates (keeps : Keeps system p s post) : ¬ Violates system p s := by
  intro violates
  induction violates with
  | here not_ => exact not_ keeps.1
  | later answered _ ih => exact ih (keeps.2 _ _ answered)

theorem keeps_bind {f : α → Program reply β} {post : β → σ → Prop} :
    Keeps system (p.bind f) s post ↔
      Keeps system p s fun a s' => Keeps system (f a) s' post := by
  induction p generalizing s with
  | ret a => rfl
  | request r next ih => exact and_congr_right fun _ => forall₃_congr fun b s' _ => ih b

theorem Keeps.weaken {post' : α → σ → Prop} (keeps : Keeps system p s post)
    (weaker : ∀ a s', post a s' → post' a s') :
    Keeps system p s post' := by
  induction p generalizing s with
  | ret a => exact weaker a s keeps
  | request r next ih => exact ⟨keeps.1, fun b s' answered => ih b (keeps.2 b s' answered)⟩

theorem keeps_true_iff : Keeps system p s (fun _ _ => True) ↔ ¬ Violates system p s := by
  refine ⟨Keeps.not_violates, fun never => ?_⟩
  induction p generalizing s with
  | ret a => trivial
  | request r next ih =>
    refine ⟨Classical.byContradiction fun not_ => never (.here not_), fun b s' answered => ?_⟩
    exact ih b fun later => never (.later answered later)

def execute (answer : σ → (r : ρ) → Option (reply r × σ)) :
    Program reply α → σ → Option (α × σ)
  | .ret a, s => some (a, s)
  | .request r next, s =>
    (answer s r).bind fun given => execute answer (next given.1) given.2

theorem Runs.of_execute {answer : σ → (r : ρ) → Option (reply r × σ)}
    (answered : ∀ s r b s', answer s r = some (b, s') → system.answers s r b s') {s' : σ} {a : α}
    (run : execute answer p s = some (a, s')) :
    Runs system p s a s' := by
  induction p generalizing s with
  | ret b =>
    cases run
    exact .ret a s'
  | request r next ih =>
    obtain ⟨⟨b, s''⟩, given, rest⟩ := Option.bind_eq_some_iff.mp run
    exact .request (answered s r b s'' given) (ih b rest)

end Runs

section Tasks

/-- A program that ends with a result or with the text of an exception. -/
def Task (reply : ρ → Type v) (α : Type w) : Type (max u v w) :=
  Program reply (Except String α)

instance : Monad (Task reply) where
  pure a := .ret (.ok a)
  bind p f := Program.bind p fun
    | .ok a => f a
    | .error what => .ret (.error what)

def throwing (what : String) : Task reply α := .ret (.error what)

def Task.ofExcept : Except String α → Task reply α := .ret

def ask (r : ρ) : Task reply (reply r) := .request r fun answer => .ret (.ok answer)

variable {system : System ρ reply σ}

/-- However the requests of a task are answered, they are permitted and it ends where `post` holds
of its result or its exception. -/
def Task.Keeps (system : System ρ reply σ) (p : Task reply α) (s : σ)
    (post : Except String α → σ → Prop) : Prop := Lib.Task.Keeps system p s post

variable {a : α} {post : Except String α → σ → Prop} {s : σ} {what : String} {f : α → Task reply β}
  {p : Task reply α} {q : α → σ → Prop}

@[simp] theorem keeps_pure :
    Task.Keeps system (pure a : Task reply α) s post ↔ post (.ok a) s := Iff.rfl

@[simp] theorem keeps_throwing :
    Task.Keeps system (throwing what : Task reply α) s post ↔ post (.error what) s := Iff.rfl

theorem keeps_ofExcept {e : Except String α} :
    Task.Keeps system (Task.ofExcept e : Task reply α) s post ↔ post e s := Iff.rfl

def andThen (system : System ρ reply σ) (f : α → Task reply β)
    (post : Except String β → σ → Prop) : Except String α → σ → Prop
  | .ok a, s => Task.Keeps system (f a) s post
  | .error what, s => post (.error what) s

@[simp] theorem andThen_ok {post : Except String β → σ → Prop} :
    andThen system f post (.ok a) s ↔ Task.Keeps system (f a) s post := Iff.rfl

@[simp] theorem andThen_error {post : Except String β → σ → Prop} :
    andThen system f post (.error what) s ↔ post (.error what) s := Iff.rfl

@[simp] theorem keeps_bind_task {post : Except String β → σ → Prop} :
    Task.Keeps system (p >>= f) s post ↔
      Task.Keeps system p s (andThen system f post) := by
  refine keeps_bind.trans ⟨fun keeps => ?_, fun keeps => ?_⟩
  · refine keeps.weaken fun result s' holds => ?_
    cases result <;> exact holds
  · refine Lib.Task.Keeps.weaken keeps fun result s' holds => ?_
    cases result <;> exact holds

theorem keeps_ask {r : ρ} {post : Except String (reply r) → σ → Prop} :
    Task.Keeps system (ask r) s post ↔
      system.permits s r ∧ ∀ b s', system.answers s r b s' → post (.ok b) s' := Iff.rfl

def returning (q : α → σ → Prop) : Except String α → σ → Prop
  | .ok a, s => q a s
  | .error _, _ => True

@[simp] theorem returning_ok : returning q (.ok a) s ↔ q a s := Iff.rfl

@[simp] theorem returning_error : returning q (.error what) s ↔ True := Iff.rfl

@[simp] theorem andThen_returning {q : β → σ → Prop} :
    andThen system f (returning q) =
      returning fun a s => Task.Keeps system (f a) s (returning q) := by
  funext result s
  cases result <;> rfl

theorem keeps_returning_true :
    Task.Keeps system p s (returning fun _ _ => True) ↔ ¬ Violates system p s := by
  refine Iff.trans ⟨fun keeps => keeps.weaken fun _ _ _ => trivial, fun keeps => ?_⟩ keeps_true_iff
  refine Lib.Task.Keeps.weaken keeps fun result _ _ => ?_
  cases result <;> trivial

@[simp] theorem keeps_ofExcept_returning {e : Except String α} :
    Task.Keeps system (Task.ofExcept e : Task reply α) s (returning q) ↔
      ∀ a, e = .ok a → q a s := by
  rw [keeps_ofExcept]
  cases e with
  | ok a => simp
  | error what => simp

theorem Task.Keeps.weaken {post' : Except String α → σ → Prop} (keeps : Task.Keeps system p s post)
    (weaker : ∀ a s', post a s' → post' a s') :
    Task.Keeps system p s post' := Lib.Task.Keeps.weaken keeps weaker

theorem Task.Keeps.mono {q' : α → σ → Prop} (keeps : Task.Keeps system p s (returning q))
    (weaker : ∀ a s', q a s' → q' a s') :
    Task.Keeps system p s (returning q') := by
  refine keeps.weaken fun result s' holds => ?_
  cases result with
  | ok a => exact weaker a s' holds
  | error what => trivial

end Tasks

section Executions

variable {answer : σ → (r : ρ) → Option (reply r × σ)}

/-- The task ends without an exception, where `q` holds of its result. -/
def Task.Ends (answer : σ → (r : ρ) → Option (reply r × σ)) (p : Task reply α) (s : σ)
    (q : α → σ → Prop) : Prop := ∃ a s', execute answer p s = some (.ok a, s') ∧ q a s'

variable {s : σ} {q : α → σ → Prop}

theorem execute_bind {p : Program reply α} {f : α → Program reply β} :
    execute answer (p.bind f) s =
      (execute answer p s).bind fun ended => execute answer (f ended.1) ended.2 := by
  induction p generalizing s with
  | ret a => rfl
  | request r next ih =>
    rw [Program.bind, execute, execute]
    cases answer s r with
    | none => rfl
    | some given => exact ih given.1

@[simp] theorem ends_pure {a : α} : Task.Ends answer (pure a : Task reply α) s q ↔ q a s := by
  constructor
  · rintro ⟨a', s', same, holds⟩
    cases same
    exact holds
  · exact fun holds => ⟨a, s, rfl, holds⟩

@[simp] theorem ends_throwing {what : String} :
    Task.Ends answer (throwing what : Task reply α) s q ↔ False := by
  refine ⟨?_, False.elim⟩
  rintro ⟨a, s', same, _⟩
  cases same

@[simp] theorem ends_ofExcept {e : Except String α} :
    Task.Ends answer (Task.ofExcept e : Task reply α) s q ↔ ∃ a, e = .ok a ∧ q a s := by
  constructor
  · rintro ⟨a, s', same, holds⟩
    cases same
    exact ⟨a, rfl, holds⟩
  · rintro ⟨a, rfl, holds⟩
    exact ⟨a, s, rfl, holds⟩

@[simp] theorem ends_bind {p : Task reply α} {f : α → Task reply β} {q : β → σ → Prop} :
    Task.Ends answer (p >>= f) s q ↔
      Task.Ends answer p s fun a s' => Task.Ends answer (f a) s' q := by
  have both : execute answer (p >>= f : Task reply β) s = (execute answer p s).bind fun ended =>
      match ended with
      | (.ok a, s') => execute answer (f a) s'
      | (.error what, s') => some (.error what, s') := by
    refine execute_bind.trans (congrArg _ ?_)
    funext ended
    obtain ⟨result, s'⟩ := ended
    cases result <;> rfl
  rw [Task.Ends, both]
  constructor
  · rintro ⟨b, s'', run, holds⟩
    obtain ⟨⟨result, s'⟩, first, rest⟩ := Option.bind_eq_some_iff.mp run
    cases result with
    | error what => cases rest
    | ok a => exact ⟨a, s', first, b, s'', rest, holds⟩
  · rintro ⟨a, s', first, b, s'', rest, holds⟩
    exact ⟨b, s'', by rw [first]; exact rest, holds⟩

theorem ends_ask {r : ρ} {q : reply r → σ → Prop} :
    Task.Ends answer (ask r) s q ↔ ∃ b s', answer s r = some (b, s') ∧ q b s' := by
  have once : execute answer (ask r : Task reply (reply r)) s =
      (answer s r).bind fun given => some (.ok given.1, given.2) := rfl
  rw [Task.Ends, once]
  constructor
  · rintro ⟨b, s', run, holds⟩
    obtain ⟨⟨b', s''⟩, given, same⟩ := Option.bind_eq_some_iff.mp run
    cases same
    exact ⟨b', s'', given, holds⟩
  · rintro ⟨b, s', given, holds⟩
    exact ⟨b, s', by rw [given]; rfl, holds⟩

theorem Task.Ends.mono {p : Task reply α} {q' : α → σ → Prop} (ends : Task.Ends answer p s q)
    (weaker : ∀ a s', q a s' → q' a s') :
    Task.Ends answer p s q' := by
  obtain ⟨a, s', run, holds⟩ := ends
  exact ⟨a, s', run, weaker a s' holds⟩

end Executions

end GraniteDb.Lib.Task
