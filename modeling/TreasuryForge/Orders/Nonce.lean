/-
# `Orders.Nonce` — signed requests, and why no two of them sign the same bytes

`exchanges/bitso/signer.py`, and the requests of `exchanges/bitso/client.py` and of the executor.
A nonce is at least one more than the last, whatever the clock and the salt; it stands first in
what is signed, before a method, a path and a body that nothing separates.  Because a method
begins with a letter, a path with a slash, and a body with a brace, what is signed can be read
back (`message_inj`), so it is never the same twice (`signed_once`).
-/
import TreasuryForge.Base.JsonExact
import Mathlib.Data.List.TakeWhile
import Mathlib.Tactic.Linarith

namespace TreasuryForge.Orders.Bitso

open JsonText

/-- `_SALT_MOD` -/
def saltMod : ℤ := 10 ^ 6

structure NonceV2 where
  last : ℤ := 0
  deriving DecidableEq, Repr

/-- `next`, with what the clock and the salt give. -/
def NonceV2.next (s : NonceV2) (nowMs salt : ℤ) : ℤ × NonceV2 :=
  let candidate := nowMs * saltMod + salt % saltMod
  let nonce := max candidate (s.last + 1)
  (nonce, { s with last := nonce })

inductive Method where
  | get
  | post
  | delete
  deriving DecidableEq, Repr

def Method.text : Method → List Char
  | .get => ['G', 'E', 'T']
  | .post => ['P', 'O', 'S', 'T']
  | .delete => ['D', 'E', 'L', 'E', 'T', 'E']

/-- A request to be signed: its path, with the query string, and the text of its body.  No brace is
in the path, nor in the book or the key of a query. -/
structure SignedRequest where
  method : Method
  path : List Char
  body : List Char := []
  rooted : path.head? = some '/'
  plain : '\x7b' ∉ path
  object : body = [] ∨ body.head? = some '\x7b'

/-- What `signature` is the HMAC of. -/
def message (nonce : ℤ) (r : SignedRequest) : List Char :=
  intText nonce ++ r.method.text ++ r.path ++ r.body

/-! ## The requests of the program -/

namespace SignedRequest

def balance : SignedRequest where
  method := .get
  path := "/api/v3/balance/".toList
  rooted := by decide
  plain := by decide
  object := Or.inl rfl

def fees : SignedRequest where
  method := .get
  path := "/api/v3/fees/".toList
  rooted := by decide
  plain := by decide
  object := Or.inl rfl

def cancelAll : SignedRequest where
  method := .delete
  path := "/api/v3/orders/all/".toList
  rooted := by decide
  plain := by decide
  object := Or.inl rfl

/-- A path followed by what the caller has put into its query. -/
theorem plain_append {path query : List Char} (hpath : '\x7b' ∉ path) (hquery : '\x7b' ∉ query) :
    '\x7b' ∉ path ++ query := by
  rw [List.mem_append]
  exact not_or.mpr ⟨hpath, hquery⟩

def openOrders (book : List Char) (h : '\x7b' ∉ book) : SignedRequest where
  method := .get
  path := "/api/v3/open_orders/".toList ++ if book = [] then [] else "?book=".toList ++ book
  rooted := rfl
  plain := by
    refine plain_append (by decide) ?_
    split
    · exact List.not_mem_nil
    · exact plain_append (by decide) h
  object := Or.inl rfl

def userTrades (qualifier key : List Char) (h : '\x7b' ∉ qualifier ++ '=' :: key) :
    SignedRequest where
  method := .get
  path := "/api/v3/user_trades/?".toList ++ (qualifier ++ '=' :: key)
  rooted := rfl
  plain := plain_append (by decide) h
  object := Or.inl rfl

/-- An order; a body is the text of an object. -/
def placeOrder (members : List Char) : SignedRequest where
  method := .post
  path := "/api/v3/orders/".toList
  body := '\x7b' :: members
  rooted := by decide
  plain := by decide
  object := Or.inr rfl

def probeWithdrawal (members : List Char) : SignedRequest where
  method := .post
  path := "/api/v3/withdrawals/".toList
  body := '\x7b' :: members
  rooted := by decide
  plain := by decide
  object := Or.inr rfl

end SignedRequest

/-! ## What is signed can be read back -/

/-- At the first place where a test fails, two texts that agree are cut alike. -/
theorem split_at_first {test : Char → Bool} {xs ys us vs : List Char} (hxs : xs.all test = true)
    (hys : ys.all test = true) (hus : ∀ c ∈ us.head?, test c = false)
    (hvs : ∀ c ∈ vs.head?, test c = false) (h : xs ++ us = ys ++ vs) : xs = ys ∧ us = vs := by
  have hcut : ∀ {zs ws : List Char}, zs.all test = true → (∀ c ∈ ws.head?, test c = false) →
      (zs ++ ws).takeWhile test = zs := by
    intro zs ws hzs hws
    rw [List.takeWhile_append_of_pos (List.all_eq_true.mp hzs)]
    cases ws with
    | nil => simp
    | cons w ws =>
        rw [List.takeWhile_cons_of_neg (by simp [hws w rfl]), List.append_nil]
  have htake : xs = ys := by rw [← hcut hxs hus, h, hcut hys hvs]
  subst htake
  exact ⟨rfl, List.append_cancel_left h⟩

theorem digits_intText {n : ℤ} (hn : 0 ≤ n) : (intText n).all Char.isDigit = true := by
  rw [intText, if_neg (not_lt.mpr hn)]
  exact digits_toDigits _

/-- The method, the path and the body, in that order. -/
theorem request_inj {r r' : SignedRequest}
    (h : r.method.text ++ r.path ++ r.body = r'.method.text ++ r'.path ++ r'.body) : r = r' := by
  have hslash : ∀ m : Method, m.text.all (· ≠ '/') = true := by
    intro m
    cases m <;> decide
  have hbrace : ∀ {q : SignedRequest}, q.path.all (· ≠ '\x7b') = true := by
    intro q
    refine List.all_eq_true.mpr fun c hc => decide_eq_true ?_
    rintro rfl
    exact q.plain hc
  have hstart : ∀ {q : SignedRequest}, ∀ c ∈ (q.path ++ q.body).head?,
      decide (c ≠ '/') = false := by
    intro q c hc
    have hhead : (q.path ++ q.body).head? = some '/' := by
      rw [List.head?_append, q.rooted]
      rfl
    rw [hhead] at hc
    cases hc
    rfl
  have hopen : ∀ {q : SignedRequest}, ∀ c ∈ q.body.head?, decide (c ≠ '\x7b') = false := by
    intro q c hc
    rcases q.object with hempty | hobject
    · rw [hempty] at hc
      cases hc
    · rw [hobject] at hc
      cases hc
      rfl
  rw [List.append_assoc, List.append_assoc] at h
  obtain ⟨hmethod, hrest⟩ := split_at_first (hslash _) (hslash _) hstart hstart h
  obtain ⟨hpath, hbody⟩ := split_at_first hbrace hbrace hopen hopen hrest
  have hsame : r.method = r'.method := by
    generalize r.method = m at hmethod ⊢
    generalize r'.method = m' at hmethod ⊢
    cases m <;> cases m' <;> first | rfl | cases hmethod
  cases r
  cases r'
  cases hsame
  cases hpath
  cases hbody
  rfl

/-- One text for two signatures: the same nonce, and the same request. -/
theorem message_inj {n n' : ℤ} {r r' : SignedRequest} (hn : 0 ≤ n) (hn' : 0 ≤ n')
    (h : message n r = message n' r') : n = n' ∧ r = r' := by
  have hletter : ∀ (m : Method) (rest : List Char), ∀ c ∈ (m.text ++ rest).head?,
      c.isDigit = false := by
    intro m rest c hc
    cases m <;> cases hc <;> decide
  unfold message at h
  simp only [List.append_assoc] at h
  obtain ⟨hnonce, hrest⟩ := split_at_first (digits_intText hn) (digits_intText hn')
    (hletter _ _) (hletter _ _) h
  refine ⟨?_, request_inj (by simpa only [List.append_assoc] using hrest)⟩
  rw [← intOf_intText n, hnonce, intOf_intText]

/-! ## Every process -/

/-- What becomes of a nonce source: it is asked for a nonce, or a new process makes it anew from
what was kept of the last nonce. -/
inductive NonceEvent where
  | sign (nowMs salt : ℤ) (r : SignedRequest)
  | restart (kept : ℤ)

/-- The nonces and the requests they went with. -/
def signed : NonceV2 → List NonceEvent → List (ℤ × SignedRequest)
  | _, [] => []
  | s, .sign nowMs salt r :: es => ((s.next nowMs salt).1, r) :: signed (s.next nowMs salt).2 es
  | _, .restart kept :: es => signed ⟨kept⟩ es

/-- Whoever restarts has kept a nonce that is not behind the last. -/
def Persisted : NonceV2 → List NonceEvent → Prop
  | _, [] => True
  | s, .sign nowMs salt _ :: es => Persisted (s.next nowMs salt).2 es
  | s, .restart kept :: es => s.last ≤ kept ∧ Persisted ⟨kept⟩ es

/-- No clock was past this time; and what was kept was the last nonce, or not past that time with
any salt. -/
def Until (top : ℤ) : NonceV2 → List NonceEvent → Prop
  | _, [] => True
  | s, .sign nowMs salt _ :: es => nowMs ≤ top ∧ Until top (s.next nowMs salt).2 es
  | s, .restart kept :: es =>
      (kept = s.last ∨ kept < (top + 1) * saltMod) ∧ Until top ⟨kept⟩ es

theorem next_nonce (s : NonceV2) (nowMs salt : ℤ) :
    (s.next nowMs salt).2.last = (s.next nowMs salt).1 ∧ s.last < (s.next nowMs salt).1 :=
  ⟨rfl, lt_of_lt_of_le (lt_add_one s.last) (le_max_right _ _)⟩

theorem lt_of_mem_signed : ∀ {es : List NonceEvent} {s : NonceV2}, Persisted s es →
    ∀ p ∈ signed s es, s.last < p.1
  | [], _, _, p, hp => by cases hp
  | .sign nowMs salt r :: es, s, h, p, hp => by
      obtain ⟨hlast, hlt⟩ := next_nonce s nowMs salt
      rcases List.mem_cons.mp hp with rfl | hlater
      · exact hlt
      · exact hlt.trans (hlast ▸ lt_of_mem_signed (s := (s.next nowMs salt).2) h p hlater)
  | .restart kept :: es, s, h, p, hp => lt_of_le_of_lt h.1 (lt_of_mem_signed h.2 p hp)

theorem signed_increasing : ∀ {es : List NonceEvent} {s : NonceV2}, Persisted s es →
    (signed s es).Pairwise fun p q => p.1 < q.1
  | [], _, _ => List.Pairwise.nil
  | .sign nowMs salt _ :: _, s, h =>
      List.Pairwise.cons (fun p hp => lt_of_mem_signed (s := (s.next nowMs salt).2) h p hp)
        (signed_increasing (s := (s.next nowMs salt).2) h)
  | .restart kept :: _, _, h => signed_increasing (s := ⟨kept⟩) h.2

theorem saltMod_pos : 0 < saltMod := by decide

/-- One nonce is past the clock only by as many as were asked for without it moving. -/
theorem next_until {s : NonceV2} {nowMs top lead : ℤ} (salt : ℤ) (hnow : nowMs ≤ top)
    (hlead : 0 ≤ lead) (hs : s.last < (top + 1) * saltMod + lead) :
    (s.next nowMs salt).1 < (top + 1) * saltMod + (lead + 1) := by
  have hsalt := Int.emod_lt_of_pos salt saltMod_pos
  have hclock : nowMs * saltMod ≤ top * saltMod := mul_le_mul_of_nonneg_right hnow saltMod_pos.le
  refine max_lt ?_ ?_
  · linarith
  · linarith

theorem signed_until {top : ℤ} : ∀ {es : List NonceEvent} {s : NonceV2} (lead : ℤ), 0 ≤ lead →
    s.last < (top + 1) * saltMod + lead → Until top s es →
    ∀ p ∈ signed s es, p.1 < (top + 1) * saltMod + lead + (signed s es).length
  | [], _, _, _, _, _, p, hp => by cases hp
  | .sign nowMs salt r :: es, s, lead, hlead, hs, h, p, hp => by
      have hnext := next_until salt h.1 hlead hs
      rw [signed, List.length_cons]
      push_cast
      rcases List.mem_cons.mp hp with rfl | hlater
      · have hrest : (0 : ℤ) ≤ (signed (s.next nowMs salt).2 es).length := Int.natCast_nonneg _
        show (s.next nowMs salt).1 < _
        linarith
      · have hlast := signed_until (s := (s.next nowMs salt).2) (lead + 1) (by linarith)
          hnext h.2 p hlater
        linarith
  | .restart kept :: es, s, lead, hlead, hs, h, p, hp => by
      obtain ⟨hkept, hrest⟩ := h
      refine signed_until (s := ⟨kept⟩) lead hlead ?_ hrest p hp
      rcases hkept with rfl | hkept
      · exact hs
      · exact lt_add_of_lt_of_nonneg hkept hlead

/-- Under any clock and any salts, in any number of processes each of which was given back a nonce
not behind the last: the nonces increase, no text is signed twice, what was signed tells the
nonce and the request; and where the first process starts with a nonce not past the clocks, and each
later one with the last nonce or one not past the clocks, no nonce is further past them than there
were requests. -/
theorem signed_once {s : NonceV2} {es : List NonceEvent} (hs : 0 ≤ s.last) (h : Persisted s es) :
    (signed s es).Pairwise (fun p q => p.1 < q.1) ∧
    ((signed s es).map fun p => message p.1 p.2).Nodup ∧
    (∀ p ∈ signed s es, ∀ n r, 0 ≤ n → message n r = message p.1 p.2 → n = p.1 ∧ r = p.2) ∧
    ∀ top, Until top s es → s.last < (top + 1) * saltMod →
      ∀ p ∈ signed s es, p.1 < (top + 1) * saltMod + (signed s es).length := by
  have hpos : ∀ p ∈ signed s es, 0 ≤ p.1 := fun p hp => (hs.trans_lt (lt_of_mem_signed h p hp)).le
  refine ⟨signed_increasing h, ?_, ?_, ?_⟩
  · refine List.pairwise_map.mpr (List.Pairwise.imp_of_mem ?_ (signed_increasing h))
    intro p q hp hq hlt hsame
    exact hlt.ne (message_inj (hpos p hp) (hpos q hq) hsame).1
  · exact fun p hp n r hn hsame => message_inj hn (hpos p hp) hsame
  · intro top htop hlast p hp
    have hbound := signed_until (s := s) 0 le_rfl (by linarith) htop p hp
    linarith

/-- A clock that is set back, and a process that goes on from the last nonce, which is past the
clock. -/
def setBack : List NonceEvent :=
  [.sign 7 999999 .balance, .sign 5 9 .fees, .restart 8000000, .sign 6 1 .cancelAll]

theorem signed_once_setBack : (signed {} setBack).map Prod.fst = [7999999, 8000000, 8000001] ∧
    ((signed {} setBack).map fun p => message p.1 p.2).Nodup ∧
    ∀ p ∈ signed {} setBack, p.1 < 8 * saltMod + 3 := by
  have hkept : Persisted {} setBack := ⟨by decide, trivial⟩
  have huntil : Until 7 {} setBack := ⟨by decide, by decide, Or.inl rfl, by decide, trivial⟩
  obtain ⟨-, hnodup, -, hahead⟩ := signed_once (by decide) hkept
  exact ⟨by decide, hnodup, hahead 7 huntil (by decide)⟩

end TreasuryForge.Orders.Bitso
