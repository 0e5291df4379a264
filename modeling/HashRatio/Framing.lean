import HashRatio.GetPkg

/-!
# The frames of a stream

A stream is garbage without a head, a frame, garbage, a frame, and so on. The
parser finds exactly the frames, in order, wherever the calls of `get_pkg` cut
the stream; and every frame that is accepted and wants an answer gets one.
-/

namespace HashRatio.Framing
open Bytes Protocol Drivers State Packets MainLoop Uart GetPkg

variable {σ : Type}

/-! ### Streams -/

/-- The two bytes of a head do not follow one another. -/
def NoHead : List Byte → Prop
  | [] => True
  | c :: cs => (c = hrtoH1 → cs.head? ≠ some hrtoH2) ∧ NoHead cs

def IsFrame (f : Pkg) : Prop := f 0 = hrtoH1 ∧ f 1 = hrtoH2

def stream : List (List Byte × Pkg) → List Byte → List Byte
  | [], tail => tail
  | (g, f) :: rest, tail => g ++ (List.ofFn f ++ stream rest tail)

/-! ### The parser between packets -/

structure Idle (p : Parser) : Prop where
  start : p.start = false
  count : p.count = 2

theorem feedByte_idle (p : Parser) (h : Idle p) (c : Byte) (hc : p.last = hrtoH1 → c ≠ hrtoH2) :
    ∃ q, p.feedByte c = some (q, none) ∧ Idle q ∧ q.last = c := by
  have hcount : p.count ≠ hrtoPCount := by
    rw [h.count]
    decide
  refine ⟨{p with preLast := p.last, last := c}, ?_, ⟨h.start, h.count⟩, rfl⟩
  simp only [Parser.feedByte, h.start, Bool.false_eq_true, if_false, Option.map_some, hcount,
    Parser.detectHead]
  rw [if_neg fun hh => hc hh.1 hh.2.1]

theorem feed_cons (p q : Parser) (c : Byte) (cs : List Byte) (h : p.feedByte c = some (q, none)) :
    feed p (c :: cs) = feed q cs := by
  rw [feed, h]
  simp only [Option.bind_some, Option.toList_none, List.nil_append]
  cases feed q cs <;> rfl

theorem feed_garbage (p : Parser) (h : Idle p) (g : List Byte) (hg : NoHead g)
    (hfirst : p.last = hrtoH1 → g.head? ≠ some hrtoH2) : ∃ q, feed p g = some (q, []) ∧ Idle q := by
  induction g generalizing p with
  | nil => exact ⟨p, rfl, h⟩
  | cons c g ih =>
    obtain ⟨q, hstep, hq, hlast⟩ :=
      feedByte_idle p h c fun hl hc => hfirst hl (by rw [List.head?_cons, hc])
    rw [feed_cons p q c g hstep]
    exact ih q hq hg.2 fun hl => hg.1 (hlast ▸ hl)

/-! ### The parser within a packet -/

structure Within (f : Pkg) (k : ℕ) (p : Parser) : Prop where
  start : p.start = true
  count : p.count = k
  got : ∀ i : Fin 39, i.val < k → p.gPkg i = f i

theorem within_got (f : Pkg) (k : ℕ) (hk : k < 39) (p : Parser) (h : Within f k p) (i : Fin 39)
    (hi : i.val < k + 1) :
    (if i = ⟨k, hk⟩ then f ⟨k, hk⟩ else p.gPkg i) = f i := by
  by_cases hik : i = ⟨k, hk⟩
  · rw [if_pos hik, hik]
  · have hne : i.val ≠ k := fun hv => hik (Fin.ext hv)
    rw [if_neg hik]
    exact h.got i (by omega)

theorem feed_body (f : Pkg) (n k : ℕ) (hk : k + n = 38) (p : Parser) (h : Within f k p) :
    ∃ q, feed p ((List.ofFn f).drop k) = some (q, [f]) ∧ Idle q ∧ q.last = 0 := by
  -- on the bytes left before the last one, which completes the packet whatever `last` is
  induction n generalizing k p with
  | zero =>
    have hk38 : k = 38 := by omega
    subst hk38
    have hstored : storeAt p.gPkg p.count (f 38) = some f := by
      rw [h.count, storeAt, dif_pos (by omega : 38 < 39)]
      congr 1
      funext i
      exact within_got f 38 (by omega) p h i (by omega)
    refine ⟨{p with preLast := 0, last := 0, start := false, count := 2, gPkg := f},
      ?_, ⟨rfl, rfl⟩, rfl⟩
    have hdrop : (List.ofFn f).drop 38 = [f 38] := rfl
    have hcount : p.count + 1 = hrtoPCount := by
      rw [h.count]
      rfl
    rw [hdrop, feed, Parser.feedByte]
    simp only [h.start, if_true, hstored, Option.map_some, hcount, Option.bind_some, feed]
    rfl
  | succ n ih =>
    have hlt : k < 39 := by omega
    have hdrop : (List.ofFn f).drop k = f ⟨k, hlt⟩ :: (List.ofFn f).drop (k + 1) := by
      rw [List.drop_eq_getElem_cons (by rw [List.length_ofFn]; omega), List.getElem_ofFn]
    have hne : p.count + 1 ≠ hrtoPCount := by
      rw [h.count, hrtoPCount]
      omega
    have hstep : p.feedByte (f ⟨k, hlt⟩) = some (⟨p.last, f ⟨k, hlt⟩, true, k + 1,
        fun i => if i = ⟨k, hlt⟩ then f ⟨k, hlt⟩ else p.gPkg i⟩, none) := by
      have hstored : storeAt p.gPkg p.count (f ⟨k, hlt⟩) =
          some (fun i => if i = ⟨k, hlt⟩ then f ⟨k, hlt⟩ else p.gPkg i) := by
        rw [h.count]
        exact dif_pos hlt
      simp only [Parser.feedByte, h.start, if_true, hstored, Option.map_some, hne, if_false,
        Parser.detectHead]
      rw [if_neg (by simp), h.count]
    rw [hdrop, feed_cons _ _ _ _ hstep]
    exact ih (k + 1) (by omega) _ ⟨rfl, rfl, fun i hi => within_got f k hlt p h i hi⟩

theorem feed_frame (p : Parser) (h : Idle p) (f : Pkg) (hf : IsFrame f) :
    ∃ q, feed p (List.ofFn f) = some (q, [f]) ∧ Idle q ∧ q.last = 0 := by
  have hbytes : List.ofFn f = hrtoH1 :: hrtoH2 :: (List.ofFn f).drop 2 := by
    rw [← hf.1, ← hf.2]
    rfl
  obtain ⟨q1, hstep1, hq1, hlast⟩ := feedByte_idle p h hrtoH1 fun _ => by decide
  have hcount : q1.count ≠ hrtoPCount := by
    rw [hq1.count]
    decide
  have hstep2 : q1.feedByte hrtoH2 =
      some (⟨hrtoH1, hrtoH2, true, 2, pkgWrite q1.gPkg 0 [hrtoH1, hrtoH2]⟩, none) := by
    simp only [Parser.feedByte, hq1.start, Bool.false_eq_true, if_false, Option.map_some, hcount,
      Parser.detectHead, hlast, and_self, if_true]
  rw [hbytes, feed_cons _ _ _ _ hstep1, feed_cons _ _ _ _ hstep2]
  refine feed_body f 36 2 rfl _ ⟨rfl, rfl, fun i hi => ?_⟩
  obtain h0 | h1 : i = 0 ∨ i = 1 := by omega
  · rw [h0, hf.1]
    rfl
  · rw [h1, hf.2]
    rfl

theorem feed_stream (gfs : List (List Byte × Pkg)) (tail : List Byte)
    (hgfs : ∀ q ∈ gfs, NoHead q.1 ∧ IsFrame q.2)
    (htail : NoHead tail) (p : Parser) (h : Idle p) (hlast : p.last = 0) :
    ∃ q, feed p (stream gfs tail) = some (q, gfs.map Prod.snd) ∧ Idle q := by
  induction gfs generalizing p with
  | nil =>
    exact feed_garbage p h tail htail fun hl => absurd (hlast ▸ hl) (by decide)
  | cons gf gfs ih =>
    obtain ⟨g, f⟩ := gf
    obtain ⟨hg, hf⟩ := hgfs (g, f) (List.mem_cons_self ..)
    obtain ⟨q1, hq1, hidle1⟩ := feed_garbage p h g hg fun hl => absurd (hlast ▸ hl) (by decide)
    obtain ⟨q2, hq2, hidle2, hlast2⟩ := feed_frame q1 hidle1 f hf
    obtain ⟨q3, hq3, hidle3⟩ := ih (fun q hq => hgfs q (List.mem_cons_of_mem _ hq)) q2 hidle2 hlast2
    refine ⟨q3, ?_, hidle3⟩
    rw [stream, feed_append, hq1]
    simp only [Option.bind_some, feed_append, hq2, hq3, Option.map_some,
      List.nil_append, List.map_cons, List.singleton_append]

/-! ### Runs behind the ring -/

def pkgOf : Event → Option Pkg
  | .pkg p => some p
  | _ => none

/-- What holds of the firmware behind its ring: the parser is where the bytes taken put it, and the
firmware is in a run that handles the packets handed on. -/
structure LinkOk (b : Board σ) (env : σ) (l : Link σ) : Prop where
  ring : l.ring.Valid
  parser : l.parser.Ok
  inside : l.outside = false
  fed : feed Parser.init l.taken = some (l.parser, l.handed)
  events : ∃ es, l.fw = Run.run (step b) (start b env) es ∧ es.filterMap pkgOf = l.handed
  replies : List.Forall₂ ReplyTo (l.handed.filter fun p => WantsReply p) (framesOf l.fw.tx)

theorem init_linkOk (b : Board σ) (env : σ) : LinkOk b env (Link.init b env) :=
  ⟨init_valid, init_ok, rfl, rfl, ⟨[], rfl, rfl⟩, .nil⟩

theorem fed_snoc {p q : Parser} {cs : List Byte} {c : Byte} {ps : List Pkg} {done : Option Pkg}
    (h : feed Parser.init cs = some (p, ps)) (hc : p.feedByte c = some (q, done)) :
    feed Parser.init (cs ++ [c]) = some (q, ps ++ done.toList) := by
  rw [feed_append, h]
  simp only [Option.bind_some, feed, hc, Option.map_some, List.append_nil]

theorem turn_linkOk (b : Board σ) (env : σ) (l : Link σ) (h : LinkOk b env l) :
    LinkOk b env (l.turn b) := by
  unfold Link.turn
  split
  · exact ⟨h.ring, h.parser, h.inside, h.fed, h.events, h.replies⟩
  · rcases read_queue l.ring h.ring with ⟨_, _, hread⟩ | ⟨c, ring, _, hread, _, hvalid⟩
    · rw [hread]
      exact h
    · obtain ⟨⟨parser, done⟩, hfeed, hok⟩ := feedByte_ok l.parser h.parser c
      have hfed := fed_snoc h.fed hfeed
      rw [hread]
      simp only [hfeed]
      cases done with
      | none =>
        rw [Option.toList_none, List.append_nil] at hfed
        exact ⟨hvalid, hok, h.inside, hfed, h.events, h.replies⟩
      | some p =>
        obtain ⟨es, hrun, hpkgs⟩ := h.events
        refine ⟨hvalid, hok, h.inside, hfed, ⟨es ++ [.pkg p], ?_, ?_⟩, ?_⟩
        · rw [Run.run_append, ← hrun]
          rfl
        · rw [List.filterMap_append, hpkgs]
          rfl
        · rw [List.filter_append]
          rcases handlePkg_frames b l.fw p with ⟨hwant, q, hq, hto⟩ | ⟨hwant, hq⟩
          · rw [hq, List.filter_cons_of_pos (by simpa using hwant), List.filter_nil]
            exact List.rel_append h.replies (.cons hto .nil)
          · rw [hq, List.filter_cons_of_neg (by simpa using hwant),
              List.filter_nil, List.append_nil]
            exact h.replies

theorem linkStep_ok (b : Board σ) (env : σ) (l : Link σ) (h : LinkOk b env l) (i : Input) :
    LinkOk b env (linkStep b l i) := by
  cases i with
  | isr c => exact ⟨isr_valid l.ring h.ring c, h.parser, h.inside, h.fed, h.events, h.replies⟩
  | call => exact ⟨h.ring, h.parser, h.inside, h.fed, h.events, h.replies⟩
  | turn =>
    rw [linkStep]
    split
    · exact turn_linkOk b env l h
    · exact h
  | other e =>
    have hother (he : ∀ p, e ≠ .pkg p) : LinkOk b env {l with fw := step b l.fw e} := by
      obtain ⟨es, hrun, hpkgs⟩ := h.events
      refine ⟨h.ring, h.parser, h.inside, h.fed, ⟨es ++ [e], ?_, ?_⟩, ?_⟩
      · rw [Run.run_append, ← hrun]
        rfl
      · have hnone : pkgOf e = none := by
          cases e with
          | pkg p => exact absurd rfl (he p)
          | _ => rfl
        rw [List.filterMap_append, hpkgs, List.filterMap_cons_none hnone]
        exact List.append_nil _
      · simp only [step_tx b l.fw e he]
        exact h.replies
    cases e with
    | pkg p => exact h
    | _ =>
      simp only [linkStep]
      split
      · exact h
      · exact hother (by simp)

theorem run_linkOk (b : Board σ) (env : σ) (is : List Input) :
    LinkOk b env (Run.run (linkStep b) (Link.init b env) is) :=
  Run.run_invariant_all (linkStep b) (LinkOk b env) (fun l i h => linkStep_ok b env l h i)
    _ is (init_linkOk b env)

/-! ### Bytes received and bytes taken -/

/-- The interrupt handler finds room in the ring. -/
def Room (l : Link σ) : Input → Prop
  | .isr _ => l.ring.unread < 1023
  | _ => True

instance (l : Link σ) (i : Input) : Decidable (Room l i) := by
  cases i <;> simp only [Room] <;> infer_instance

theorem turn_taken (b : Board σ) (env : σ) (l : Link σ) (h : LinkOk b env l) :
    (l.turn b).taken ++ (l.turn b).ring.queue = l.taken ++ l.ring.queue ∧
      (l.turn b).received = l.received := by
  unfold Link.turn
  split
  · exact ⟨rfl, rfl⟩
  · rcases read_queue l.ring h.ring with ⟨_, _, hread⟩ | ⟨c, ring, _, hread, hqueue, _⟩
    · rw [hread]
      exact ⟨rfl, rfl⟩
    · obtain ⟨⟨parser, done⟩, hfeed, _⟩ := feedByte_ok l.parser h.parser c
      rw [hread]
      simp only [hfeed]
      cases done with
      | none => exact ⟨by simp only [hqueue, List.append_assoc, List.singleton_append], rfl⟩
      | some p => exact ⟨by simp only [hqueue, List.append_assoc, List.singleton_append], rfl⟩

theorem received_eq (b : Board σ) (env : σ) (is : List Input)
    (hroom : Run.Meets (linkStep b) Room (Link.init b env) is) :
    (Run.run (linkStep b) (Link.init b env) is).received =
      (Run.run (linkStep b) (Link.init b env) is).taken ++
        (Run.run (linkStep b) (Link.init b env) is).ring.queue := by
  have hinv := Run.run_invariant (linkStep b) Room
    (fun l => LinkOk b env l ∧ l.received = l.taken ++ l.ring.queue) (fun l i hi hl => ?_)
    (Link.init b env) is hroom
    ⟨init_linkOk b env, by simp only [Link.init, init_queue, List.append_nil]⟩
  · exact hinv.2
  · refine ⟨linkStep_ok b env l hl.1 i, ?_⟩
    cases i with
    | isr c =>
      simp only [linkStep]
      rw [isr_queue l.ring hl.1.ring hi c, hl.2, List.append_assoc]
    | call => exact hl.2
    | turn =>
      rw [linkStep]
      split
      · obtain ⟨htaken, hreceived⟩ := turn_taken b env l hl.1
        rw [htaken, hreceived, hl.2]
      · exact hl.2
    | other e =>
      cases e with
      | pkg p => exact hl.2
      | _ =>
        simp only [linkStep]
        split <;> exact hl.2

def drain (n : ℕ) : List Input := (List.replicate n [Input.call, Input.turn]).flatten

theorem turn_queue (b : Board σ) (env : σ) (l : Link σ) (h : LinkOk b env l) :
    (l.turn b).ring.queue = l.ring.queue.tail := by
  unfold Link.turn
  rcases read_queue l.ring h.ring with ⟨hempty, hblock, hread⟩ | ⟨c, ring, hblock, hread, hqueue, _⟩
  · rw [hread, hempty]
    split <;> exact hempty
  · obtain ⟨⟨parser, done⟩, hfeed, _⟩ := feedByte_ok l.parser h.parser c
    rw [if_neg (by simp [hblock]), hread, hqueue]
    simp only [hfeed]
    cases done <;> rfl

theorem drain_queue (b : Board σ) (env : σ) (n : ℕ) (l : Link σ) (h : LinkOk b env l) :
    LinkOk b env (Run.run (linkStep b) l (drain n)) ∧
      (Run.run (linkStep b) l (drain n)).ring.queue = l.ring.queue.drop n ∧
      (Run.run (linkStep b) l (drain n)).taken ++ (Run.run (linkStep b) l (drain n)).ring.queue =
        l.taken ++ l.ring.queue := by
  induction n generalizing l with
  | zero => exact ⟨h, rfl, rfl⟩
  | succ n ih =>
    have hcalled : LinkOk b env {l with inCall := true} := linkStep_ok b env l h .call
    have hrun : Run.run (linkStep b) l (drain (n + 1)) =
        Run.run (linkStep b) (Link.turn b {l with inCall := true}) (drain n) := by
      rw [drain, List.replicate_succ, List.flatten_cons, ← drain]
      rfl
    obtain ⟨hok, hqueue, htaken⟩ := ih _ (turn_linkOk b env _ hcalled)
    rw [hrun]
    refine ⟨hok, ?_, ?_⟩
    · rw [hqueue, turn_queue b env _ hcalled, List.drop_tail]
    · rw [htaken, (turn_taken b env _ hcalled).1]

theorem queue_length (r : Ring) : r.queue.length < 1024 := by
  rw [Ring.queue, List.length_map, List.length_range]
  exact Nat.mod_lt _ (by decide)

theorem drain_taken (b : Board σ) (env : σ) (l : Link σ) (h : LinkOk b env l) :
    (Run.run (linkStep b) l (drain 1023)).taken = l.taken ++ l.ring.queue := by
  obtain ⟨_, hqueue, htaken⟩ := drain_queue b env 1023 l h
  have hlen := queue_length l.ring
  rw [List.drop_eq_nil_of_le (by omega)] at hqueue
  rwa [hqueue, List.append_nil] at htaken

/-! ### The frames handed on -/

theorem handed_prefix {cs rest : List Byte} {p q : Parser} {ps qs : List Pkg}
    (h : feed Parser.init cs = some (p, ps))
    (hall : feed Parser.init (cs ++ rest) = some (q, qs)) : ps <+: qs := by
  rw [feed_append, h] at hall
  simp only [Option.bind_some] at hall
  obtain ⟨s, _, hs⟩ := Option.map_eq_some_iff.mp hall
  exact ⟨s.2, (Prod.ext_iff.mp hs).2⟩

/-- **`get_pkg` hands on the frames of the stream** that is read, in order and each once, and
answers them. What is received with room in the ring is read by and by. -/
theorem get_pkg_frames (b : Board σ) (env : σ) (gfs : List (List Byte × Pkg)) (tail : List Byte)
    (hgfs : ∀ q ∈ gfs, NoHead q.1 ∧ IsFrame q.2) (htail : NoHead tail) (is : List Input) :
    let l := Run.run (linkStep b) (Link.init b env) is
    l.outside = false ∧
      (l.taken <+: stream gfs tail → l.handed <+: gfs.map Prod.snd) ∧
      (l.taken = stream gfs tail → l.handed = gfs.map Prod.snd) ∧
      (Run.Meets (linkStep b) Room (Link.init b env) is → l.received = stream gfs tail →
        (Run.run (linkStep b) l (drain 1023)).handed = gfs.map Prod.snd) ∧
      (∃ es, l.fw = Run.run (step b) (start b env) es ∧ es.filterMap pkgOf = l.handed) ∧
      List.Forall₂ ReplyTo (l.handed.filter fun p => WantsReply p) (framesOf l.fw.tx) := by
  intro l
  have hl : LinkOk b env l := run_linkOk b env is
  obtain ⟨q, hstream, _⟩ := feed_stream gfs tail hgfs htail Parser.init ⟨rfl, rfl⟩ rfl
  have hall (l' : Link σ) (hl' : LinkOk b env l') (htaken : l'.taken = stream gfs tail) :
      l'.handed = gfs.map Prod.snd := by
    have hfed := hl'.fed
    rw [htaken, hstream] at hfed
    exact ((Prod.ext_iff.mp (Option.some.inj hfed)).2).symm
  refine ⟨hl.inside, ?_, hall l hl, fun hroom hreceived => ?_, hl.events, hl.replies⟩
  · rintro ⟨rest, hrest⟩
    rw [← hrest] at hstream
    exact handed_prefix hl.fed hstream
  · refine hall _ (drain_queue b env 1023 l hl).1 ?_
    rw [drain_taken b env l hl, ← received_eq b env is hroom, hreceived]

def twoFrames : List (List Byte × Pkg) :=
  [([hrtoH1], hostPkg .detect 1 1 []), ([hrtoH2], hostPkg .require 1 1 [hrtoH1, hrtoH2])]

theorem hostPkg_isFrame (type : PkgType) (idx cnt : Byte) (data : List Byte) :
    IsFrame (hostPkg type idx cnt data) :=
  ⟨rfl, rfl⟩

def twoCalls : List Input :=
  (stream twoFrames [hrtoH1]).map Input.isr ++ [.call] ++ List.replicate 82 .turn ++
    [.other .loopHead, .call]

theorem get_pkg_twoFrames :
    let l := Run.run (linkStep (stillBoard 7)) (Link.init (stillBoard 7) ()) twoCalls
    l.outside = false ∧
      (l.taken <+: stream twoFrames [hrtoH1] → l.handed <+: twoFrames.map Prod.snd) ∧
      (l.taken = stream twoFrames [hrtoH1] → l.handed = twoFrames.map Prod.snd) ∧
      (Run.Meets (linkStep (stillBoard 7)) Room (Link.init (stillBoard 7) ()) twoCalls →
        l.received = stream twoFrames [hrtoH1] →
        (Run.run (linkStep (stillBoard 7)) l (drain 1023)).handed = twoFrames.map Prod.snd) ∧
      (∃ es, l.fw = Run.run (step (stillBoard 7)) (start (stillBoard 7) ()) es ∧
        es.filterMap pkgOf = l.handed) ∧
      List.Forall₂ ReplyTo (l.handed.filter fun p => WantsReply p) (framesOf l.fw.tx) :=
  get_pkg_frames (stillBoard 7) () twoFrames [hrtoH1]
    (fun q hq => by
      simp only [twoFrames, List.mem_cons, List.not_mem_nil, or_false] at hq
      rcases hq with rfl | rfl
      · exact ⟨⟨by simp, trivial⟩, hostPkg_isFrame ..⟩
      · exact ⟨⟨by simp, trivial⟩, hostPkg_isFrame ..⟩)
    ⟨by simp, trivial⟩ twoCalls

end HashRatio.Framing
