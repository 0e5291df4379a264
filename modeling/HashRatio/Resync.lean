import HashRatio.Framing

/-!
# Finding the frames again

After bytes were lost the parser may be within a frame that never ends as it
began. It fills that frame up with bytes of the next one and looks for a head in
what is left. A frame whose bytes hold no second head therefore leaves the parser
between packets, and the frame after it is handed on.
-/

namespace HashRatio.Resync
open Bytes Protocol Drivers State Packets MainLoop Uart GetPkg Framing

variable {σ : Type}

instance decNoHead : (cs : List Byte) → Decidable (NoHead cs)
  | [] => .isTrue trivial
  | _ :: cs =>
    have := decNoHead cs
    inferInstanceAs (Decidable (_ ∧ _))

/-! ### Bytes that fill up a frame -/

def filled (p : Parser) (cs : List Byte) : Pkg :=
  fun i => if i.val < p.count then p.gPkg i else cs.getD (i.val - p.count) 0

theorem filled_drop (p : Parser) (cs : List Byte) (hlen : p.count + cs.length = 39) :
    (List.ofFn (filled p cs)).drop p.count = cs := by
  apply List.ext_getElem
  · rw [List.length_drop, List.length_ofFn]
    omega
  · intro i hi hcs
    rw [List.getElem_drop, List.getElem_ofFn, filled, if_neg (by simp only; omega)]
    have hsub : p.count + i - p.count = i := by omega
    simp only [hsub, List.getD_eq_getElem?_getD, List.getElem?_eq_getElem hcs, Option.getD_some]

theorem feed_filled (p : Parser) (h : p.Ok) (hstart : p.start = true) (cs : List Byte)
    (hlen : p.count + cs.length = 39) :
    ∃ q, feed p cs = some (q, [filled p cs]) ∧ Idle q ∧ q.last = 0 := by
  have hlt := h.count_lt
  have hwithin : Within (filled p cs) p.count p := ⟨hstart, rfl, fun i hi => (if_pos hi).symm⟩
  have hbody := feed_body (filled p cs) (38 - p.count) p.count (by omega) p hwithin
  rwa [filled_drop p cs hlen] at hbody

theorem noHead_drop (cs : List Byte) (h : NoHead cs) (n : ℕ) : NoHead (cs.drop n) := by
  induction cs generalizing n with
  | nil => rw [List.drop_nil]; trivial
  | cons c cs ih =>
    cases n with
    | zero => exact h
    | succ n =>
      rw [List.drop_succ_cons]
      exact ih h.2 n

/-! ### Two frames in a row -/

/-- The only head within the frame is its own. -/
def OneHead (f : Pkg) : Prop := NoHead ((List.ofFn f).drop 1)

instance (f : Pkg) : Decidable (OneHead f) := decNoHead _

/-- Within a frame: it is filled up with the first bytes of `f`, the others are garbage. -/
theorem feed_within (p : Parser) (h : p.Ok) (hstart : p.start = true) (f : Pkg) (hone : OneHead f) :
    ∃ q lost, feed p (List.ofFn f) = some (q, [lost]) ∧ Idle q := by
  have hge := h.count_ge
  have hlt := h.count_lt
  have hsplit :
      (List.ofFn f).take (39 - p.count) ++ (List.ofFn f).drop (39 - p.count) = List.ofFn f :=
    List.take_append_drop ..
  have hlen : p.count + ((List.ofFn f).take (39 - p.count)).length = 39 := by
    rw [List.length_take, List.length_ofFn]
    omega
  obtain ⟨q1, hq1, hidle1, hlast1⟩ := feed_filled p h hstart _ hlen
  have hrest : NoHead ((List.ofFn f).drop (39 - p.count)) := by
    have hdrop := noHead_drop _ hone (38 - p.count)
    rwa [List.drop_drop, show 1 + (38 - p.count) = 39 - p.count by omega] at hdrop
  obtain ⟨q2, hq2, hidle2⟩ :=
    feed_garbage q1 hidle1 _ hrest fun hl => absurd (hlast1 ▸ hl) (by decide)
  refine ⟨q2, filled p ((List.ofFn f).take (39 - p.count)), ?_, hidle2⟩
  rw [← hsplit, feed_append, hsplit, hq1]
  simp only [Option.bind_some, hq2, Option.map_some, List.append_nil]

/-- From every state of the parser, one frame brings it between packets. -/
theorem feed_one (p : Parser) (h : p.Ok) (f : Pkg) (hf : IsFrame f) (hone : OneHead f) :
    ∃ q r, feed p (List.ofFn f) = some (q, [r]) ∧ Idle q ∧ (p.start = false → r = f) := by
  cases hstart : p.start with
  | false =>
    obtain ⟨q, hq, hidle, _⟩ := feed_frame p ⟨hstart, h.idle hstart⟩ f hf
    exact ⟨q, f, hq, hidle, fun _ => rfl⟩
  | true =>
    obtain ⟨q, lost, hq, hidle⟩ := feed_within p h hstart f hone
    exact ⟨q, lost, hq, hidle, fun hs => by cases hs⟩

theorem feed_two (p : Parser) (h : p.Ok) (f g : Pkg) (hf : IsFrame f) (hg : IsFrame g)
    (hone : OneHead f) :
    ∃ q r, feed p (List.ofFn f ++ List.ofFn g) = some (q, [r, g]) ∧ Idle q ∧
      (p.start = false → r = f) := by
  obtain ⟨q1, r, hq1, hidle1, hr⟩ := feed_one p h f hf hone
  obtain ⟨q2, hq2, hidle2, _⟩ := feed_frame q1 hidle1 g hg
  refine ⟨q2, r, ?_, hidle2, hr⟩
  rw [feed_append, hq1]
  simp only [Option.bind_some, hq2, Option.map_some, List.singleton_append]

/-! ### Behind the ring -/

theorem handed_append (b : Board σ) (env : σ) (l l' : Link σ) (hl : LinkOk b env l)
    (hl' : LinkOk b env l') (cs : List Byte) (htaken : l'.taken = l.taken ++ cs)
    (q : Parser) (ps : List Pkg)
    (hfeed : feed l.parser cs = some (q, ps)) : l'.handed = l.handed ++ ps := by
  have hfed := hl'.fed
  rw [htaken, feed_append, hl.fed] at hfed
  simp only [Option.bind_some, hfeed, Option.map_some, Option.some.injEq, Prod.mk.injEq] at hfed
  exact hfed.2.symm

/-- What arrives with room in the ring is behind what was there. -/
theorem run_taken (b : Board σ) (env : σ) (l : Link σ) (hl : LinkOk b env l) (is : List Input)
    (hroom : Run.Meets (linkStep b) Room l is) :
    ∃ new, (Run.run (linkStep b) l is).received = l.received ++ new ∧
      (Run.run (linkStep b) l is).taken ++ (Run.run (linkStep b) l is).ring.queue =
        l.taken ++ l.ring.queue ++ new := by
  induction is generalizing l with
  | nil => exact ⟨[], (List.append_nil _).symm, (List.append_nil _).symm⟩
  | cons i is ih =>
    obtain ⟨new, hreceived, htaken⟩ := ih (linkStep b l i) (linkStep_ok b env l hl i) hroom.2
    rw [Run.run_cons, hreceived, htaken]
    cases i with
    | isr c =>
      refine ⟨c :: new, ?_, ?_⟩
      · simp only [linkStep, List.append_assoc, List.singleton_append]
      · simp only [linkStep]
        rw [isr_queue l.ring hl.ring hroom.1 c]
        simp only [List.append_assoc, List.singleton_append]
    | call => exact ⟨new, rfl, rfl⟩
    | turn =>
      refine ⟨new, ?_, ?_⟩
      · rw [linkStep]
        split
        · rw [(turn_taken b env l hl).2]
        · rfl
      · rw [linkStep]
        split
        · rw [(turn_taken b env l hl).1]
        · rfl
    | other e =>
      refine ⟨new, ?_, ?_⟩
      · cases e with
        | pkg p => rfl
        | _ => simp only [linkStep]; split <;> rfl
      · cases e with
        | pkg p => rfl
        | _ => simp only [linkStep]; split <;> rfl

/-- **Resynchronisation within one frame.** Wherever the parser is after a run, of two frames in a
row the second is handed on when the first holds no second head: of the bytes themselves, of a run
that reads them, and of a run that receives them with room in the ring. -/
theorem resync (b : Board σ) (env : σ) (before after : List Input) (f g : Pkg)
    (hf : IsFrame f) (hg : IsFrame g) (hone : OneHead f) :
    let l := Run.run (linkStep b) (Link.init b env) before
    let l' := Run.run (linkStep b) l after
    (∃ q r, feed l.parser (List.ofFn f ++ List.ofFn g) = some (q, [r, g]) ∧ Idle q ∧
      (l.parser.start = false → r = f)) ∧
    (l'.taken = l.taken ++ (List.ofFn f ++ List.ofFn g) → ∃ r, l'.handed = l.handed ++ [r, g]) ∧
    (Run.Meets (linkStep b) Room l after →
      l'.received = l.received ++ (List.ofFn f ++ List.ofFn g) →
      ∃ earlier, (Run.run (linkStep b) l' (drain 1023)).handed = l.handed ++ earlier ++ [g]) := by
  intro l l'
  have hl : LinkOk b env l := run_linkOk b env before
  have hl' : LinkOk b env l' := by
    have hall := run_linkOk b env (before ++ after)
    rwa [Run.run_append] at hall
  refine ⟨feed_two l.parser hl.parser f g hf hg hone, fun htaken => ?_, fun hroom hreceived => ?_⟩
  · obtain ⟨q, r, hfeed, _⟩ := feed_two l.parser hl.parser f g hf hg hone
    exact ⟨r, handed_append b env l l' hl hl' _ htaken q [r, g] hfeed⟩
  · obtain ⟨new, hnew, htaken⟩ := run_taken b env l hl after hroom
    have hbytes : new = List.ofFn f ++ List.ofFn g :=
      List.append_cancel_left (hnew.symm.trans hreceived)
    -- the parser has first read what was in the ring before
    obtain ⟨p, ps, hqueue, hp⟩ := feed_ok l.parser hl.parser l.ring.queue
    obtain ⟨q, r, hfeed, _⟩ := feed_two p hp f g hf hg hone
    have hdrained : (Run.run (linkStep b) l' (drain 1023)).taken =
        l.taken ++ (l.ring.queue ++ (List.ofFn f ++ List.ofFn g)) := by
      rw [drain_taken b env l' hl', htaken, hbytes, List.append_assoc]
    have hall : feed l.parser (l.ring.queue ++ (List.ofFn f ++ List.ofFn g)) =
        some (q, ps ++ [r, g]) := by
      rw [feed_append, hqueue]
      simp only [Option.bind_some, hfeed, Option.map_some]
    refine ⟨ps ++ [r], ?_⟩
    rw [handed_append b env l _ hl (drain_queue b env 1023 l' hl').1 _ hdrained q _ hall]
    simp only [List.append_assoc, List.singleton_append]

def cutFrame : List Input := [.isr hrtoH1, .isr hrtoH2, .call, .turn, .turn]

def twoArrive : List Input :=
  (List.ofFn (hostPkg .detect 1 1 []) ++ List.ofFn (hostPkg .require 1 1 [])).map Input.isr

theorem resync_cutFrame :
    let l := Run.run (linkStep (stillBoard 7)) (Link.init (stillBoard 7) ()) cutFrame
    let l' := Run.run (linkStep (stillBoard 7)) l twoArrive
    (∃ q r,
      feed l.parser (List.ofFn (hostPkg .detect 1 1 []) ++ List.ofFn (hostPkg .require 1 1 [])) =
        some (q, [r, hostPkg .require 1 1 []]) ∧ Idle q ∧
        (l.parser.start = false → r = hostPkg .detect 1 1 [])) ∧
    (l'.taken =
      l.taken ++ (List.ofFn (hostPkg .detect 1 1 []) ++ List.ofFn (hostPkg .require 1 1 [])) →
      ∃ r, l'.handed = l.handed ++ [r, hostPkg .require 1 1 []]) ∧
    (Run.Meets (linkStep (stillBoard 7)) Room l twoArrive →
      l'.received =
        l.received ++ (List.ofFn (hostPkg .detect 1 1 []) ++ List.ofFn (hostPkg .require 1 1 [])) →
      ∃ earlier, (Run.run (linkStep (stillBoard 7)) l' (drain 1023)).handed =
        l.handed ++ earlier ++ [hostPkg .require 1 1 []]) :=
  resync (stillBoard 7) () cutFrame twoArrive (hostPkg .detect 1 1 []) (hostPkg .require 1 1 [])
    (hostPkg_isFrame ..) (hostPkg_isFrame ..) (by decide +kernel)

end HashRatio.Resync
