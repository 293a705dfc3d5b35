/-
# `Base.Prog` — programs as call trees, and the protocols they follow

A `Prog Op Ret ε α` touches its surroundings only through calls: it returns,
raises, or makes a call `op : Op` and goes on with the reply of type `Ret op`.
What a call does is not said here.  The same program can be run against a
handler (`Prog.eval`; `Prog.Through` are the points it comes through), or taken
apart one call at a time by a machine that lets other things happen between two
calls and may lose the program altogether (`Base.Host`).

A `Protocol` is what a client of those calls promises about their order: a
state, the calls allowed in it, and the state after each reply.  `Keeps P t p Q`
says that `p`, started in state `t`, makes only allowed calls whatever the
replies are, and ends in a state satisfying `Q`.  It is a property of the
program text alone; `keeps_bind` composes it, so every function of a program
gets one `Keeps` lemma and its callers use that.
-/
import Mathlib.Logic.Basic

namespace Resume

/-- A program: a tree of calls. -/
inductive Prog (Op : Type) (Ret : Op → Type) (ε α : Type) where
  | ret (a : α)
  | raise (e : ε)
  | call (op : Op) (k : Ret op → Prog Op Ret ε α)

variable {Op : Type} {Ret : Op → Type} {ε α β γ : Type}

namespace Prog

def bind : Prog Op Ret ε α → (α → Prog Op Ret ε β) → Prog Op Ret ε β
  | .ret a, f => f a
  | .raise e, _ => .raise e
  | .call op k, f => .call op (fun r => (k r).bind f)

instance : Monad (Prog Op Ret ε) where
  pure := .ret
  bind := bind

/-- Make one call and return its reply. -/
def ask (op : Op) : Prog Op Ret ε (Ret op) := .call op .ret

/-- `try p except e: h e`. -/
def tryCatch : Prog Op Ret ε α → (ε → Prog Op Ret ε α) → Prog Op Ret ε α
  | .ret a, _ => .ret a
  | .raise e, h => h e
  | .call op k, h => .call op (fun r => (k r).tryCatch h)

/-- The next call, if the program makes one. -/
def head : Prog Op Ret ε α → Option Op
  | .ret _ | .raise _ => none
  | .call op _ => some op

/-- Run to the end against a handler of the calls. -/
def eval {σ : Type} (h : σ → (op : Op) → Ret op × σ) : Prog Op Ret ε α → σ → Except ε α × σ
  | .ret a, s => (.ok a, s)
  | .raise e, s => (.error e, s)
  | .call op k, s => (k (h s op).1).eval h (h s op).2

/-- The calls made on the way, each with its reply. -/
def calls {σ : Type} (h : σ → (op : Op) → Ret op × σ) :
    Prog Op Ret ε α → σ → List (Σ op : Op, Ret op)
  | .ret _, _ => []
  | .raise _, _ => []
  | .call op k, s => ⟨op, (h s op).1⟩ :: (k (h s op).1).calls h (h s op).2

theorem eval_bind {σ : Type} (h : σ → (op : Op) → Ret op × σ) (f : α → Prog Op Ret ε β) :
    ∀ (p : Prog Op Ret ε α) (s : σ), (p >>= f).eval h s =
      match p.eval h s with
      | (.ok a, s') => (f a).eval h s'
      | (.error e, s') => (.error e, s')
  | .ret _, _ => rfl
  | .raise _, _ => rfl
  | .call op k, s => eval_bind h f (k (h s op).1) (h s op).2

/-- Run from `s` against `h`, the program ends as `Q` says. -/
def wp {σ : Type} (h : σ → (op : Op) → Ret op × σ) (s : σ) (p : Prog Op Ret ε α)
    (Q : σ → Except ε α → Prop) : Prop :=
  Q (p.eval h s).2 (p.eval h s).1

theorem wp_mono {σ : Type} {h : σ → (op : Op) → Ret op × σ} {s : σ} {p : Prog Op Ret ε α}
    {Q Q' : σ → Except ε α → Prop} (hp : wp h s p Q) (hQ : ∀ s' r, Q s' r → Q' s' r) :
    wp h s p Q' :=
  hQ _ _ hp

theorem wp_bind {σ : Type} {h : σ → (op : Op) → Ret op × σ} {f : α → Prog Op Ret ε β}
    {Q : σ → Except ε β → Prop} : ∀ {p : Prog Op Ret ε α} {s : σ},
      wp h s p (fun s' r => match r with
        | .ok a => wp h s' (f a) Q
        | .error e => Q s' (.error e)) →
      wp h s (p >>= f) Q
  | .ret _, _, hp => hp
  | .raise _, _, hp => hp
  | .call _ k, _, hp => wp_bind (p := k _) hp

/-- The points a run of `p` from `s` against `h` comes through: what is left of the program,
and the state. -/
inductive Through {σ : Type} (h : σ → (op : Op) → Ret op × σ) (p : Prog Op Ret ε α) (s : σ) :
    Prog Op Ret ε α → σ → Prop
  | start : Through h p s p s
  | call {op : Op} {k : Ret op → Prog Op Ret ε α} {s' : σ} : Through h p s (.call op k) s' →
      Through h p s (k (h s' op).1) (h s' op).2

section Through
variable {σ : Type} {h : σ → (op : Op) → Ret op × σ} {p q : Prog Op Ret ε α} {s s' : σ}
  {I : σ → Prop}

/-- What every call keeps holds at every point. -/
theorem Through.keeps (hI : ∀ s op, I s → I (h s op).2) (hs : I s) (hq : Through h p s q s') :
    I s' := by
  induction hq with
  | start => exact hs
  | call _ ih => exact hI _ _ ih

/-- From every point the run ends as it does from the start. -/
theorem Through.eval (hq : Through h p s q s') : q.eval h s' = p.eval h s := by
  induction hq with
  | start => rfl
  | call _ ih => exact ih

theorem eval_keeps (hI : ∀ s op, I s → I (h s op).2) :
    ∀ {p : Prog Op Ret ε α} {s : σ}, I s → I (p.eval h s).2
  | .ret _, _, hs => hs
  | .raise _, _, hs => hs
  | .call _ k, _, hs => eval_keeps hI (p := k _) (hI _ _ hs)

end Through

end Prog

/-! ## Protocols -/

/-- Which calls may be made in a state, and the state after each reply. -/
structure Protocol (Op : Type) (Ret : Op → Type) (T : Type) where
  allowed : T → Op → Prop
  next : T → (op : Op) → Ret op → T

namespace Protocol

variable {T : Type} (P : Protocol Op Ret T)

/-- `p` makes only allowed calls from `t` on, and ends as `Q` says. -/
def Keeps : T → Prog Op Ret ε α → (T → Except ε α → Prop) → Prop
  | t, .ret a, Q => Q t (.ok a)
  | t, .raise e, Q => Q t (.error e)
  | t, .call op k, Q => P.allowed t op ∧ ∀ r, Keeps (P.next t op r) (k r) Q

/-- A call the next of which is `op`, when there is one, is allowed. -/
def AllowsHead (t : T) : Option Op → Prop
  | none => True
  | some op => P.allowed t op

variable {P}

theorem Keeps.mono {Q Q' : T → Except ε α → Prop} (h : ∀ t r, Q t r → Q' t r) :
    ∀ {t : T} {p : Prog Op Ret ε α}, P.Keeps t p Q → P.Keeps t p Q'
  | _, .ret _, hp => h _ _ hp
  | _, .raise _, hp => h _ _ hp
  | _, .call _ _, hp => ⟨hp.1, fun r => (hp.2 r).mono h⟩

/-- What the rest of a sequence has to keep, given how its first part ended. -/
def Then (P : Protocol Op Ret T) (f : α → Prog Op Ret ε β) (Q : T → Except ε β → Prop) :
    T → Except ε α → Prop
  | t, .ok a => P.Keeps t (f a) Q
  | t, .error e => Q t (.error e)

theorem keeps_bind {f : α → Prog Op Ret ε β} {Q : T → Except ε β → Prop} :
    ∀ {t : T} {p : Prog Op Ret ε α}, P.Keeps t p (P.Then f Q) → P.Keeps t (p >>= f) Q
  | _, .ret _, hp => hp
  | _, .raise _, hp => hp
  | _, .call _ _, hp => ⟨hp.1, fun r => keeps_bind (hp.2 r)⟩

theorem keeps_tryCatch {h : ε → Prog Op Ret ε α} {Q : T → Except ε α → Prop} :
    ∀ {t : T} {p : Prog Op Ret ε α},
      P.Keeps t p (fun t' r => match r with
        | .ok a => Q t' (.ok a)
        | .error e => P.Keeps t' (h e) Q) →
      P.Keeps t (p.tryCatch h) Q
  | _, .ret _, hp => hp
  | _, .raise _, hp => hp
  | _, .call _ _, hp => ⟨hp.1, fun r => keeps_tryCatch (hp.2 r)⟩

/-- A handler that follows the state of the protocol as well. -/
def track (P : Protocol Op Ret T) {σ : Type} (h : σ → (op : Op) → Ret op × σ) :
    σ × T → (op : Op) → Ret op × (σ × T) :=
  fun s op => ((h s.1 op).1, ((h s.1 op).2, P.next s.2 op (h s.1 op).1))

/-- To follow the state changes nothing else. -/
theorem eval_track {σ : Type} (h : σ → (op : Op) → Ret op × σ) :
    ∀ (p : Prog Op Ret ε α) (s : σ) (t : T),
      ((p.eval (P.track h) (s, t)).1, (p.eval (P.track h) (s, t)).2.1) = p.eval h s
  | .ret _, _, _ => rfl
  | .raise _, _, _ => rfl
  | .call op k, s, t => eval_track h (k (h s op).1) (h s op).2 (P.next t op (h s op).1)

/-- What a program keeps holds when it is run, against whatever handler. -/
theorem Keeps.eval {Q : T → Except ε α → Prop} {σ : Type} (h : σ → (op : Op) → Ret op × σ) :
    ∀ {t : T} {p : Prog Op Ret ε α}, P.Keeps t p Q → ∀ s,
      Q (p.eval (P.track h) (s, t)).2.2 (p.eval (P.track h) (s, t)).1
  | _, .ret _, hp, _ => hp
  | _, .raise _, hp, _ => hp
  | _, .call op _, hp, s => Keeps.eval h (hp.2 (h s op).1) (h s op).2

/-- These calls with these replies are allowed one after the other. -/
def Follows : T → List (Σ op : Op, Ret op) → Prop
  | _, [] => True
  | t, ⟨op, r⟩ :: es => P.allowed t op ∧ Follows (P.next t op r) es

/-- The calls of a run follow the protocol. -/
theorem Keeps.follows {Q : T → Except ε α → Prop} {σ : Type} (h : σ → (op : Op) → Ret op × σ) :
    ∀ {t : T} {p : Prog Op Ret ε α}, P.Keeps t p Q → ∀ s, P.Follows t (p.calls h s)
  | _, .ret _, _, _ => trivial
  | _, .raise _, _, _ => trivial
  | _, .call op _, hp, s => ⟨hp.1, (hp.2 (h s op).1).follows h (h s op).2⟩

/-- The protocol whose state is all that was called so far, with the replies. -/
def ofHistory (may : List (Σ op : Op, Ret op) → Op → Prop) :
    Protocol Op Ret (List (Σ op : Op, Ret op)) where
  allowed := may
  next es op r := es ++ [⟨op, r⟩]

/-- Each call was allowed by those before it. -/
theorem Follows.may {may : List (Σ op : Op, Ret op) → Op → Prop} {op : Op} {r : Ret op}
    {post : List (Σ op : Op, Ret op)} : ∀ {pre es : List (Σ op : Op, Ret op)},
      (ofHistory may).Follows es (pre ++ ⟨op, r⟩ :: post) → may (es ++ pre) op
  | [], es, h => by
      rw [List.append_nil]
      exact h.1
  | e :: pre, es, h => by
      rw [List.append_cons]
      exact Follows.may h.2

/-- How a program ends, said of the calls of the run. -/
theorem Keeps.history {may : List (Σ op : Op, Ret op) → Op → Prop}
    {Q : List (Σ op : Op, Ret op) → Except ε α → Prop} {σ : Type}
    (h : σ → (op : Op) → Ret op × σ) : ∀ {es : List (Σ op : Op, Ret op)} {p : Prog Op Ret ε α},
      (ofHistory may).Keeps es p Q → ∀ s, Q (es ++ p.calls h s) (p.eval h s).1
  | es, .ret _, hp, _ => (List.append_nil es).symm ▸ hp
  | es, .raise _, hp, _ => (List.append_nil es).symm ▸ hp
  | es, .call op _, hp, s => by
      have hrest := Keeps.history h (hp.2 (h s op).1) (h s op).2
      rw [Prog.calls, List.append_cons]
      exact hrest

/-- Two protocols side by side. -/
def prod {T' : Type} (P : Protocol Op Ret T) (P' : Protocol Op Ret T') :
    Protocol Op Ret (T × T') where
  allowed t op := P.allowed t.1 op ∧ P'.allowed t.2 op
  next t op r := (P.next t.1 op r, P'.next t.2 op r)

theorem Keeps.prod {T' : Type} {P' : Protocol Op Ret T'} {Q : T → Except ε α → Prop}
    {Q' : T' → Except ε α → Prop} :
    ∀ {t : T} {t' : T'} {p : Prog Op Ret ε α}, P.Keeps t p Q → P'.Keeps t' p Q' →
      (P.prod P').Keeps (t, t') p (fun s r => Q s.1 r ∧ Q' s.2 r)
  | _, _, .ret _, hp, hp' => ⟨hp, hp'⟩
  | _, _, .raise _, hp, hp' => ⟨hp, hp'⟩
  | _, _, .call _ _, hp, hp' => ⟨⟨hp.1, hp'.1⟩, fun r => (hp.2 r).prod (hp'.2 r)⟩

theorem Keeps.allowsHead {t : T} {p : Prog Op Ret ε α} {Q : T → Except ε α → Prop}
    (hp : P.Keeps t p Q) : P.AllowsHead t p.head := by
  cases p with
  | ret _ => trivial
  | raise _ => trivial
  | call _ _ => exact hp.1

end Protocol

end Resume
