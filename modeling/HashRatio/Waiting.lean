import HashRatio.Resync

/-!
# When a call of get_pkg returns

Between packets `get_pkg` reads only what is there; within a packet it waits for
the next byte. So a call comes to its end when the unread bytes leave the parser
between packets, or complete a packet that is rejected; if they stop within a
packet, it waits until more of them come.
-/

namespace HashRatio.Waiting
open Bytes Protocol Drivers State Packets MainLoop Uart GetPkg Framing Resync

variable {σ : Type}

/-! ### What the unread bytes come to -/

/-- The bytes end between packets, or a packet among them is rejected. -/
def Settles (p : Parser) (cs : List Byte) : Prop :=
  ∃ r ∈ feed p cs, r.1.start = false ∨ ∃ f ∈ r.2, ¬CrcOk f

instance (p : Parser) (cs : List Byte) : Decidable (Settles p cs) :=
  inferInstanceAs (Decidable (∃ r ∈ feed p cs, r.1.start = false ∨ ∃ f ∈ r.2, ¬CrcOk f))

theorem settles_nil (p : Parser) : Settles p [] ↔ p.start = false := by
  rw [Settles, feed]
  constructor
  · rintro ⟨r, hr, hend⟩
    rw [← Option.mem_some_iff.mp hr] at hend
    rcases hend with hstart | ⟨f, hf, _⟩
    · exact hstart
    · cases hf
  · intro hstart
    exact ⟨(p, []), rfl, Or.inl hstart⟩

theorem settles_cons (p q : Parser) (hq : q.Ok) (c : Byte) (cs : List Byte) (done : Option Pkg)
    (h : p.feedByte c = some (q, done)) :
    Settles p (c :: cs) ↔ (∃ f ∈ done, ¬CrcOk f) ∨ Settles q cs := by
  obtain ⟨q', ps, hfeed, _⟩ := feed_ok q hq cs
  have hcons : feed p (c :: cs) = some (q', done.toList ++ ps) := by
    rw [feed, h]
    simp only [Option.bind_some, hfeed, Option.map_some]
  simp only [Settles, hcons, hfeed, Option.mem_some_iff, exists_eq_left', List.mem_append,
    Option.mem_toList]
  constructor
  · rintro (hstart | ⟨f, hf | hf, hcrc⟩)
    · exact Or.inr (Or.inl hstart)
    · exact Or.inl ⟨f, hf, hcrc⟩
    · exact Or.inr (Or.inr ⟨f, hf, hcrc⟩)
  · rintro (⟨f, hf, hcrc⟩ | hstart | ⟨f, hf, hcrc⟩)
    · exact Or.inr ⟨f, Or.inl hf, hcrc⟩
    · exact Or.inl hstart
    · exact Or.inr ⟨f, Or.inr hf, hcrc⟩

/-! ### A turn -/

theorem handlePkg_rejects (b : Board σ) (s : Fw σ) (p : Pkg) :
    (handlePkg b s p).2 = true ↔ ¬CrcOk p := by
  unfold handlePkg
  by_cases h : CrcOk p
  · rw [decodePkg_accept b s p h]
    simp [h]
  · rw [decodePkg_reject b s p h]
    simp [h]

/-- A turn of a call: it returns, waits, or takes a byte, and then a rejected packet ends the
call. -/
theorem turn_cases (b : Board σ) (env : σ) (l : Link σ) (h : LinkOk b env l) :
    (l.ring.queue = [] ∧ l.parser.start = false ∧ (l.turn b).inCall = false) ∨
    (l.ring.queue = [] ∧ l.parser.start = true ∧ l.turn b = l) ∨
    ∃ c done, l.parser.feedByte c = some ((l.turn b).parser, done) ∧
      l.ring.queue = c :: (l.turn b).ring.queue ∧
      ((l.turn b).inCall = false → l.inCall = false ∨ ∃ f ∈ done, ¬CrcOk f) ∧
      ((∃ f ∈ done, ¬CrcOk f) → (l.turn b).inCall = false) := by
  rcases read_queue l.ring h.ring with ⟨hempty, hblock, hread⟩ | ⟨c, ring, hblock, hread, hqueue, _⟩
  · cases hstart : l.parser.start with
    | false =>
      refine Or.inl ⟨hempty, rfl, ?_⟩
      rw [Link.turn, if_pos ⟨hblock, hstart⟩]
    | true =>
      refine Or.inr (Or.inl ⟨hempty, rfl, ?_⟩)
      rw [Link.turn, if_neg fun hc => Bool.noConfusion (hstart.symm.trans hc.2), hread]
  · obtain ⟨⟨parser, done⟩, hfeed, _⟩ := feedByte_ok l.parser h.parser c
    refine Or.inr (Or.inr ⟨c, done, ?_⟩)
    have hgo : ¬(l.ring.uartReadNonblock = false ∧ l.parser.start = false) := fun hc =>
      Bool.noConfusion (hblock.symm.trans hc.1)
    cases done with
    | none =>
      have hturn : l.turn b = {l with ring := ring, parser := parser, taken := l.taken ++ [c]} := by
        rw [Link.turn, if_neg hgo, hread]
        simp only [hfeed]
      rw [hturn]
      refine ⟨hfeed, hqueue, Or.inl, ?_⟩
      rintro ⟨f, hf, _⟩
      cases hf
    | some p =>
      have hturn : l.turn b = {l with
          ring := ring
          parser := parser
          inCall := !(handlePkg b l.fw p).2
          fw := (handlePkg b l.fw p).1
          taken := l.taken ++ [c]
          handed := l.handed ++ [p]} := by
        rw [Link.turn, if_neg hgo, hread]
        simp only [hfeed]
      rw [hturn]
      refine ⟨hfeed, hqueue, fun hout => Or.inr ⟨p, rfl, ?_⟩, ?_⟩
      · exact (handlePkg_rejects b l.fw p).mp (by simpa using hout)
      · rintro ⟨f, hf, hcrc⟩
        rw [← Option.mem_some_iff.mp hf] at hcrc
        simpa using (handlePkg_rejects b l.fw p).mpr hcrc

/-! ### The call -/

/-- The call goes on when `main` does nothing else and no byte comes. -/
def Returns (b : Board σ) (l : Link σ) : Prop :=
  ∃ n, (Run.run (linkStep b) l (List.replicate n .turn)).inCall = false

theorem returned (b : Board σ) (l : Link σ) (h : l.inCall = false) (n : ℕ) :
    Run.run (linkStep b) l (List.replicate n .turn) = l := by
  induction n with
  | zero => rfl
  | succ n ih =>
    rw [List.replicate_succ, Run.run_cons, linkStep,
      if_neg (by rw [h]; exact Bool.false_ne_true), ih]

theorem settles_returns (b : Board σ) (env : σ) (n : ℕ) (l : Link σ) (h : LinkOk b env l)
    (hlen : l.ring.queue.length = n) (hsettles : Settles l.parser l.ring.queue) :
    (Run.run (linkStep b) l (List.replicate (n + 1) .turn)).inCall = false := by
  -- on the unread bytes, each of which is one turn
  induction n generalizing l with
  | zero =>
    rw [List.replicate_succ, List.replicate_zero, Run.run_cons, Run.run_nil, linkStep]
    split
    · have hempty := List.eq_nil_of_length_eq_zero hlen
      rw [hempty, settles_nil] at hsettles
      rcases turn_cases b env l h with ⟨_, _, hout⟩ | ⟨_, hstart, _⟩ | ⟨c, done, _, hqueue, _⟩
      · exact hout
      · exact Bool.noConfusion (hstart.symm.trans hsettles)
      · rw [hempty] at hqueue
        cases hqueue
    · exact Bool.eq_false_iff.mpr ‹_›
  | succ n ih =>
    rw [List.replicate_succ, Run.run_cons]
    by_cases hcall : l.inCall = true
    · rw [linkStep, if_pos hcall]
      have hok := turn_linkOk b env l h
      rcases turn_cases b env l h with ⟨hempty, _⟩ | ⟨hempty, _⟩ | ⟨c, done, hfeed,
        hqueue, _, hreject⟩
      · rw [hempty] at hlen
        cases hlen
      · rw [hempty] at hlen
        cases hlen
      · rw [hqueue, settles_cons _ _ hok.parser c _ done hfeed] at hsettles
        rw [hqueue, List.length_cons, Nat.add_right_cancel_iff] at hlen
        rcases hsettles with hbad | hrest
        · rw [returned b _ (hreject hbad)]
          exact hreject hbad
        · exact ih (l.turn b) hok hlen hrest
    · have hout := Bool.eq_false_iff.mpr hcall
      rw [linkStep, if_neg hcall, returned b l hout]
      exact hout

theorem step_waits (b : Board σ) (env : σ) (l : Link σ) (i : Input) (hi : ∀ c, i ≠ .isr c)
    (h : LinkOk b env l ∧ l.inCall = true ∧ ¬Settles l.parser l.ring.queue) :
    LinkOk b env (linkStep b l i) ∧ (linkStep b l i).inCall = true ∧
      ¬Settles (linkStep b l i).parser (linkStep b l i).ring.queue := by
  obtain ⟨hl, hcall, hsettles⟩ := h
  refine ⟨linkStep_ok b env l hl i, ?_⟩
  cases i with
  | isr c => exact absurd rfl (hi c)
  | call => exact ⟨rfl, hsettles⟩
  | turn =>
    rw [linkStep, if_pos hcall]
    rcases turn_cases b env l hl with ⟨hempty, hstart, _⟩ | ⟨_, _, hsame⟩ | ⟨c, done,
      hfeed, hqueue, hout, _⟩
    · rw [hempty, settles_nil] at hsettles
      exact absurd hstart hsettles
    · rw [hsame]
      exact ⟨hcall, hsettles⟩
    · rw [hqueue, settles_cons _ _ (turn_linkOk b env l hl).parser c _ done hfeed,
        not_or] at hsettles
      refine ⟨?_, hsettles.2⟩
      by_contra hne
      rcases hout (Bool.eq_false_iff.mpr hne) with hnot | hbad
      · exact Bool.noConfusion (hnot.symm.trans hcall)
      · exact hsettles.1 hbad
  | other e =>
    cases e with
    | pkg p => exact ⟨hcall, hsettles⟩
    | _ =>
      simp only [linkStep, hcall, if_true]
      exact ⟨trivial, hsettles⟩

theorem unsettled_waits (b : Board σ) (env : σ) (l : Link σ) (h : LinkOk b env l)
    (hcall : l.inCall = true) (hsettles : ¬Settles l.parser l.ring.queue) (is : List Input)
    (his : ∀ i ∈ is, ∀ c, i ≠ .isr c) :
    (Run.run (linkStep b) l is).inCall = true :=
  (Run.run_invariant (linkStep b) (fun _ i => ∀ c, i ≠ .isr c)
    (fun l => LinkOk b env l ∧ l.inCall = true ∧ ¬Settles l.parser l.ring.queue)
    (fun l i hi hl => step_waits b env l i hi hl) l is
    (Run.meets_of_forall _ _ l is fun i hi _ => his i hi) ⟨h, hcall, hsettles⟩).2.1

/-- **A call of `get_pkg` returns just when the unread bytes end between packets or complete a
rejected one**, and then after a turn for each of them and one more; else it waits as long as no
byte comes. -/
theorem returns_iff (b : Board σ) (env : σ) (is : List Input) (l : Link σ)
    (hl : l = Run.run (linkStep b) (Link.init b env) is) (hcall : l.inCall = true) :
    (Returns b l ↔ Settles l.parser l.ring.queue) ∧
      (Settles l.parser l.ring.queue →
        (Run.run (linkStep b) l (List.replicate (l.ring.queue.length + 1) .turn)).inCall = false) ∧
      (¬Settles l.parser l.ring.queue →
        ∀ later, (∀ i ∈ later, ∀ c, i ≠ .isr c) →
          (Run.run (linkStep b) l later).inCall = true) := by
  have hok : LinkOk b env l := hl ▸ run_linkOk b env is
  have hends (hs : Settles l.parser l.ring.queue) := settles_returns b env _ l hok rfl hs
  have hwaits (hs : ¬Settles l.parser l.ring.queue) := unsettled_waits b env l hok hcall hs
  refine ⟨⟨?_, fun hs => ⟨_, hends hs⟩⟩, hends, hwaits⟩
  rintro ⟨n, hn⟩
  by_contra hs
  refine Bool.noConfusion (hn.symm.trans (hwaits hs _ fun i hi c hc => ?_))
  rw [List.eq_of_mem_replicate hi] at hc
  cases hc

theorem returns_iff_cutFrame :
    let l := Run.run (linkStep (stillBoard 7)) (Link.init (stillBoard 7) ()) cutFrame
    (Returns (stillBoard 7) l ↔ Settles l.parser l.ring.queue) ∧
      (Settles l.parser l.ring.queue →
        (Run.run (linkStep (stillBoard 7)) l
          (List.replicate (l.ring.queue.length + 1) .turn)).inCall = false) ∧
      (¬Settles l.parser l.ring.queue →
        ∀ later, (∀ i ∈ later, ∀ c, i ≠ .isr c) →
          (Run.run (linkStep (stillBoard 7)) l later).inCall = true) :=
  returns_iff (stillBoard 7) () cutFrame _ rfl (by decide +kernel)

/-- A head arrives and nothing more: the call that reads it never returns. -/
theorem head_waits :
    ¬Returns (stillBoard 7)
      (Run.run (linkStep (stillBoard 7)) (Link.init (stillBoard 7) ()) cutFrame) := by
  rintro ⟨n, hn⟩
  have hok := run_linkOk (stillBoard 7) () cutFrame
  have hwaits := unsettled_waits (stillBoard 7) () _ hok (by decide +kernel) (by decide +kernel)
    (List.replicate n .turn) fun i hi c hc => by
      rw [List.eq_of_mem_replicate hi] at hc
      cases hc
  exact Bool.noConfusion (hn.symm.trans hwaits)

end HashRatio.Waiting
