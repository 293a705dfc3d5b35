/-
# `Base.Carry` — a program whose calls are carried out by programs

`p.carry f` is `p` with the program `f op` in place of every call `op`.  `Keeps.carry` is how a
protocol gets through: if a relation between the two states is kept by the program of every call
that `p` may make, then what `p` keeps above is kept below.
-/
import TreasuryForge.Base.Prog

namespace Resume

variable {Op Op' : Type} {Ret : Op → Type} {Ret' : Op' → Type} {ε α T T' : Type}

/-- Each call is carried out by a program. -/
def Prog.carry (f : (op : Op) → Prog Op' Ret' ε (Ret op)) : Prog Op Ret ε α → Prog Op' Ret' ε α
  | .ret a => .ret a
  | .raise e => .raise e
  | .call op k => (f op).bind fun r => (k r).carry f

namespace Protocol

/-- What `p` keeps with its calls is kept with the programs that carry them out. -/
theorem Keeps.carry {P : Protocol Op Ret T} {P' : Protocol Op' Ret' T'} {R : T → T' → Prop}
    {f : (op : Op) → Prog Op' Ret' ε (Ret op)} {Q : T → Except ε α → Prop}
    {Q' : T' → Except ε α → Prop}
    (hcall : ∀ t t' op, R t t' → P.allowed t op → P'.Keeps t' (f op) fun s' r => match r with
      | .ok r => R (P.next t op r) s'
      | .error e => Q' s' (.error e))
    (hend : ∀ t t' r, R t t' → Q t r → Q' t' r) :
    ∀ {t : T} {t' : T'} {p : Prog Op Ret ε α}, R t t' → P.Keeps t p Q → P'.Keeps t' (p.carry f) Q'
  | t, t', .ret _, hR, hp => hend t t' _ hR hp
  | t, t', .raise _, hR, hp => hend t t' _ hR hp
  | t, t', .call op k, hR, hp => by
      refine keeps_bind (p := f op) ((hcall t t' op hR hp.1).mono ?_)
      rintro s' (e | r) hs'
      · exact hs'
      · exact Keeps.carry hcall hend hs' (hp.2 r)

end Protocol

end Resume
