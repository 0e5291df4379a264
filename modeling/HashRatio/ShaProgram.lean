import HashRatio.ShaSequence

/-!
# What sha256.c writes to the engine

`sha256` and `dsha256` as the accesses they make to the registers, in order: RST
and INIT, the words of each block and a wait for DONE after it, DBL, and eight
reads of HASH. The blocks written are those of the padded message, so that an
engine which takes the accesses, however they are spaced, ends between blocks.
-/

namespace HashRatio.ShaProgram
open Bytes Sha256 ShaCore ShaRounds Sha ShaBus ShaSequence

inductive Access where
  | cmd (d : Word)
  | din (w : Word)
  | waitDone
  | hash
  deriving DecidableEq, Repr

/-! ### sha256.c -/

def sha256Init : List Access := [.cmd cmdRst, .cmd cmdInit]

/-- DONE is polled after every 512 bits. -/
def writeBlock (block : List Byte) : List Access :=
  (List.range 16).flatMap fun k => .din (wordAt block k) :: if (4 * k + 4) % 64 = 0 then
    [.waitDone] else []

/-- `block[i] = input[i]` below `lenRem`, then the marker, in an array of zeros. -/
def fillBlock (input : List Byte) (lenRem : ℕ) : List Byte :=
  ((List.range lenRem).foldl (fun block i => block.set i (input.getD i 0))
    (List.replicate 64 0)).set lenRem 0x80

def putCount (block : List Byte) (count : ℕ) : List Byte :=
  let bits := BitVec.ofNat 32 (count * 8)
  let block := block.set 60 (((bits &&& 0xff000000) >>> 24).setWidth 8)
  let block := block.set 61 (((bits &&& 0x00ff0000) >>> 16).setWidth 8)
  let block := block.set 62 (((bits &&& 0x0000ff00) >>> 8).setWidth 8)
  block.set 63 ((bits &&& 0x000000ff).setWidth 8)

def sha256Padding (input : List Byte) (count : ℕ) : List Access :=
  let lenRem := count % 64
  if 64 - 9 < lenRem % 64 then
    writeBlock (fillBlock input lenRem) ++ writeBlock (putCount (List.replicate 64 0) count)
  else writeBlock (putCount (fillBlock input lenRem) count)

def sha256Update (input : List Byte) (count : ℕ) : List Access :=
  let lenBlocks := if count < 2 ^ 31 then count / 64 else 0
  (List.range lenBlocks).flatMap fun i => writeBlock (input.drop (64 * i))

def sha256Final : List Access := List.replicate 8 .hash

def sha256Double : List Access := [.cmd cmdDbl, .waitDone]

def sha256 (input : List Byte) (count : ℕ) : List Access :=
  sha256Init ++ sha256Update input count ++
    sha256Padding (input.drop (count / 64 * 64)) count ++ sha256Final

def dsha256 (input : List Byte) (count : ℕ) : List Access :=
  sha256Init ++ sha256Update input count ++ sha256Padding (input.drop (count / 64 * 64)) count ++
    sha256Double ++ sha256Final

/-! ### The blocks written -/

def blockAccesses (ws : List Word) : List Access := ws.map .din ++ [.waitDone]

theorem writeBlock_eq (block : List Byte) : writeBlock block = blockAccesses (toWords 16 block) :=
  rfl

theorem fillBlock_eq (input : List Byte) (n : ℕ) (hn : n < 64) (hinput : input.length = n) :
    fillBlock input n = input ++ [0x80] ++ List.replicate (63 - n) 0 := by
  have hcopy (k : ℕ) (hk : k ≤ n) :
      (List.range k).foldl (fun block i => block.set i (input.getD i 0)) (List.replicate 64 0) =
        input.take k ++ List.replicate (64 - k) 0 := by
    induction k with
    | zero => rfl
    | succ k ih =>
      have hlen : (input.take k).length = k := by rw [List.length_take]; omega
      have hrep : List.replicate (64 - k) (0 : Byte) = 0 :: List.replicate (64 - (k + 1)) 0 := by
        rw [← List.replicate_succ]
        congr 1
        omega
      rw [List.range_succ, List.foldl_append, ih (by omega), List.foldl_cons, List.foldl_nil,
        List.set_append_right _ _ (by omega), hlen, Nat.sub_self, hrep, List.set_cons_zero,
        List.getD_eq_getElem _ _ (by omega), List.take_succ_eq_append_getElem (by omega),
          List.append_assoc,
        List.singleton_append]
  have hrep : List.replicate (64 - n) (0 : Byte) = 0 :: List.replicate (63 - n) 0 := by
    rw [← List.replicate_succ]
    congr 1
    omega
  rw [fillBlock, hcopy n (Nat.le_refl n), List.take_of_length_le (by omega),
    List.set_append_right _ _ (by omega), hinput,
    Nat.sub_self, hrep, List.set_cons_zero, List.append_assoc, List.singleton_append]

theorem putCount_eq (pre : List Byte) (hpre : pre.length = 60) (count : ℕ) :
    putCount (pre ++ List.replicate 4 0) count = pre ++ ShaDriver.countBytes count := by
  have hset (j : ℕ) (ws : List Byte) (v : Byte) : (pre ++ ws).set (60 + j) v =
      pre ++ ws.set j v := by
    rw [List.set_append_right _ _ (by omega), hpre, Nat.add_sub_cancel_left]
  have h0 (ws : List Byte) (v : Byte) : (pre ++ ws).set 60 v = pre ++ ws.set 0 v := hset 0 ws v
  have h1 (ws : List Byte) (v : Byte) : (pre ++ ws).set 61 v = pre ++ ws.set 1 v := hset 1 ws v
  have h2 (ws : List Byte) (v : Byte) : (pre ++ ws).set 62 v = pre ++ ws.set 2 v := hset 2 ws v
  have h3 (ws : List Byte) (v : Byte) : (pre ++ ws).set 63 v = pre ++ ws.set 3 v := hset 3 ws v
  simp only [putCount, h0, h1, h2, h3]
  rfl

/-- The blocks after the whole blocks of the input: the rest of it, the marker, zeros, the
length. -/
theorem padding_blocks (rest : List Byte) (count : ℕ) (hrest : rest.length = count % 64)
    (hc : count < 2 ^ 29) :
    sha256Padding rest count =
      (blocks (rest ++ [0x80] ++ List.replicate (padZeros count) 0 ++ lengthField count)).flatMap
      blockAccesses := by
  have hmod : count % 64 < 64 := Nat.mod_lt _ (by decide)
  have hfill := fillBlock_eq rest (count % 64) hmod hrest
  rw [sha256Padding]
  simp only [Nat.mod_mod]
  split
  · rename_i hbig
    have hcount : putCount (List.replicate 64 0) count =
        List.replicate 60 0 ++ ShaDriver.countBytes count :=
      putCount_eq (List.replicate 60 0) (List.length_replicate ..) count
    rw [ShaDriver.tail_two rest count hrest hc hbig, hfill, hcount, writeBlock_eq, writeBlock_eq]
    rfl
  · rename_i hsmall
    have h60 : (rest ++ [0x80] ++ List.replicate (59 - count % 64) (0 : Byte)).length = 60 := by
      simp only [List.length_append, List.length_replicate, List.length_cons, List.length_nil]
      omega
    have hroom : rest ++ [0x80] ++ List.replicate (63 - count % 64) 0 =
        rest ++ [0x80] ++ List.replicate (59 - count % 64) 0 ++ List.replicate 4 0 := by
      rw [show 63 - count % 64 = (59 - count % 64) + 4 by omega, ← List.replicate_append_replicate]
      simp only [List.append_assoc]
    rw [ShaDriver.tail_one rest count hrest hc hsmall, hfill, hroom,
      putCount_eq _ h60, writeBlock_eq]
    rfl

theorem update_blocks (input : List Byte) (h : input.length < 2 ^ 29) :
    sha256Update input input.length =
      (blocks (input.take (input.length / 64 * 64))).flatMap blockAccesses := by
  rw [sha256Update, if_pos (by omega), ← ShaDriver.whole_blocks, List.flatMap_map]
  rfl

theorem message_blocks (input : List Byte) (h : input.length < 2 ^ 29) :
    sha256Update input input.length ++
      sha256Padding (input.drop (input.length / 64 * 64)) input.length =
      (blocks (pad input)).flatMap blockAccesses := by
  have hdiv : input.length / 64 * 64 ≤ input.length := Nat.div_mul_le_self _ _
  have hrest : (input.drop (input.length / 64 * 64)).length = input.length % 64 := by
    rw [List.length_drop]
    omega
  rw [update_blocks input h, padding_blocks _ _ hrest h, ShaDriver.pad_blocks, List.flatMap_append]

def doubling (double : Bool) : List Access := if double then sha256Double else []

/-- `sha256`, or `dsha256` when `double` is set. -/
def hashing (double : Bool) (input : List Byte) : List Access :=
  if double then dsha256 input input.length else sha256 input input.length

theorem hashing_eq (double : Bool) (input : List Byte) (h : input.length < 2 ^ 29) :
    hashing double input =
      sha256Init ++
        ((blocks (pad input)).flatMap blockAccesses ++ (doubling double ++ sha256Final)) := by
  have hmessage := message_blocks input h
  cases double with
  | false =>
    rw [hashing, if_neg Bool.false_ne_true, sha256, doubling, if_neg Bool.false_ne_true, ← hmessage]
    simp only [List.append_assoc, List.nil_append]
  | true =>
    rw [hashing, if_pos rfl, dsha256, doubling, if_pos rfl, ← hmessage]
    simp only [List.append_assoc]

/-! ### The words -/

def dins (as : List Access) : List Word :=
  as.filterMap fun
    | .din w => some w
    | _ => none

theorem dins_blocks (bs : List (List Word)) : dins (bs.flatMap blockAccesses) = bs.flatten := by
  have hwords (ws : List Word) : dins (blockAccesses ws) = ws := by
    rw [dins, blockAccesses, List.filterMap_append, List.filterMap_map]
    exact (List.append_nil _).trans (List.filterMap_some ..)
  induction bs with
  | nil => rfl
  | cons ws bs ih =>
    have hws := hwords ws
    rw [dins] at ih hws ⊢
    rw [List.flatMap_cons, List.filterMap_append, hws, ih, List.flatten_cons]

theorem blocks_words (n : ℕ) (bs : List Byte) (h : bs.length = 64 * n) :
    (blocks bs).flatten = toWords (16 * n) bs := by
  induction n generalizing bs with
  | zero =>
    rw [List.eq_nil_of_length_eq_zero h]
    rfl
  | succ n ih =>
    have hpre : (bs.take 64).length = 64 * 1 := by rw [List.length_take]; omega
    have hdrop : (bs.drop 64).length = 64 * n := by rw [List.length_drop]; omega
    conv_lhs => rw [← List.take_append_drop 64 bs]
    rw [blocks_append 1 _ _ hpre, List.flatten_append, ih _ hdrop, blocks_single _ (by rw [hpre]),
      ShaDriver.toWords_take]
    have hshift : wordAt (bs.drop 64) = fun k => wordAt bs (16 + k) := by
      funext k
      have hk : 4 * (16 + k) = 64 + 4 * k := by omega
      simp only [wordAt, List.getD_eq_getElem?_getD, List.getElem?_drop, hk, Nat.add_assoc]
    have hrange : List.range (16 * (n + 1)) =
        List.range 16 ++ (List.range (16 * n)).map (16 + ·) := by
      rw [← List.range_add]
      congr 1
      omega
    simp only [toWords, hrange, hshift, List.map_append, List.map_map,
      List.flatten_cons, List.flatten_nil,
      List.append_nil, Function.comp_def]

theorem pad_length (input : List Byte) : ∃ n, (pad input).length = 64 * n ∧ 0 < n := by
  refine ⟨(input.length + 8) / 64 + 1, ?_, Nat.succ_pos _⟩
  have hfield : (lengthField input.length).length = 8 := rfl
  simp only [pad, List.length_append, List.length_replicate, List.length_cons,
    List.length_nil, hfield, padZeros]
  omega

theorem blocks_full (bs : List Byte) (ws : List Word) (h : ws ∈ blocks bs) : ws.length = 16 := by
  obtain ⟨i, _, rfl⟩ := List.mem_map.mp h
  rw [toWords, List.length_map, List.length_range]

/-! ### On the engine -/

/-- The engine takes the accesses one after the other, each with some spacing, and polls until DONE
reads 1; `got` are the words read from HASH. -/
inductive Executes : Regs → List Access → Regs → List Word → Prop
  | nil (s : Regs) : Executes s [] s []
  | cmd {s t : Regs} {as : List Access} {got : List Word} (g : Spacing) (d : Word)
      (h : Executes (transfer s g (writeCmd d)) as t got) : Executes s (.cmd d :: as) t got
  | din {s t : Regs} {as : List Access} {got : List Word} (g : Spacing) (w : Word)
      (h : Executes (transfer s g (writeDin w)) as t got) : Executes s (.din w :: as) t got
  | busy {s t : Regs} {as : List Access} {got : List Word} (g : Spacing)
      (hpoll : donePolled s g = false)
      (h : Executes (transfer s g (readCmd g)) (.waitDone :: as) t got) :
      Executes s (.waitDone :: as) t got
  | done {s t : Regs} {as : List Access} {got : List Word} (g : Spacing)
      (hpoll : donePolled s g = true) (h : Executes (transfer s g (readCmd g)) as t got) :
      Executes s (.waitDone :: as) t got
  | hash {s t : Regs} {as : List Access} {got : List Word} (g : Spacing)
      (h : Executes (transfer s g (readHash g)) as t got) :
      Executes s (.hash :: as) t (readOut s g (readHash g) :: got)

section executes
variable {s t : Regs} {as : List Access} {got : List Word} {bs : List (List Word)}
  {ws : List Word} {dbl : Bool}

/-- A wait ends where `Q` holds when `K` holds before it and until DONE is read. -/
theorem wait_done (K Q : Regs → Prop)
    (hbusy : ∀ s g, K s → donePolled s g = false → K (transfer s g (readCmd g)))
    (hdone : ∀ s g, K s → donePolled s g = true → Q (transfer s g (readCmd g))) (hs : K s)
    (h : Executes s (.waitDone :: as) t got) : ∃ u, Q u ∧ Executes u as t got := by
  generalize hall : Access.waitDone :: as = all at h
  induction h with
  | nil => cases hall
  | cmd => cases hall
  | din => cases hall
  | hash => cases hall
  | busy g hpoll _ ih => exact ih (hbusy _ g hs hpoll) hall
  | done g hpoll h =>
    cases hall
    exact ⟨_, hdone _ g hs hpoll, h⟩

theorem words_done (us : List Word) (hs : Driven s (.writing bs ws))
    (hfew : ws.length + us.length ≤ 16) (h : Executes s (us.map .din ++ as) t got) :
    ∃ u, Driven u (.writing bs (ws ++ us)) ∧ Executes u as t got := by
  induction us generalizing s ws with
  | nil => exact ⟨s, by rwa [List.append_nil], h⟩
  | cons u us ih =>
    rw [List.length_cons] at hfew
    cases h with
    | din g _ h =>
      obtain ⟨v, hv, hexec⟩ :=
        ih (.din g u hs (by omega)) (by rw [List.length_append, List.length_singleton]; omega) h
      exact ⟨v, by rwa [List.append_assoc] at hv, hexec⟩

theorem blocks_done (cs : List (List Word)) (hfull : ∀ ws ∈ cs, ws.length = 16)
    (hs : Driven s (.writing bs [])) (h : Executes s (cs.flatMap blockAccesses ++ as) t got) :
    ∃ u, Driven u (.writing (bs ++ cs) []) ∧ Executes u as t got := by
  induction cs generalizing s bs with
  | nil => exact ⟨s, by rwa [List.append_nil], h⟩
  | cons ws cs ih =>
    have hlen := hfull ws (List.mem_cons_self ..)
    rw [List.flatMap_cons, blockAccesses, List.append_assoc, List.append_assoc] at h
    obtain ⟨u, hu, hexec⟩ := words_done ws hs (by rw [hlen]; decide) h
    rw [List.nil_append] at hu
    obtain ⟨v, hv, hrest⟩ := wait_done (fun s => Driven s (.writing bs ws))
      (fun s => Driven s (.writing (bs ++ [ws]) []))
      (fun s g hs hpoll => .busy g hs hlen hpoll)
      (fun s g hs hpoll => .done g hs hlen hpoll) hu hexec
    obtain ⟨x, hx, hend⟩ := ih (fun ws' hmem => hfull ws' (List.mem_cons_of_mem _ hmem)) hv hrest
    exact ⟨x, by rwa [List.append_assoc] at hx, hend⟩

theorem doubling_done (hsome : bs ≠ []) (hs : Driven s (.writing bs []))
    (h : Executes s (doubling dbl ++ as) t got) :
    ∃ u, Driven u (.reading bs dbl []) ∧ Executes u as t got := by
  cases dbl with
  | false => exact ⟨s, .single hs hsome, h⟩
  | true =>
    cases h with
    | cmd g _ h =>
      exact wait_done (fun s => Driven s (.doubling bs)) (fun s => Driven s (.reading bs true []))
        (fun s g hs hpoll => .dblBusy g hs hpoll) (fun s g hs hpoll => .dblDone g hs hpoll)
        (.dbl g hs hsome) h

theorem final_done (n : ℕ) (pre : List Word) (hs : Driven s (.reading bs dbl pre))
    (hfew : pre.length + n ≤ 8) (h : Executes s (List.replicate n .hash) t got) :
    Driven t (.reading bs dbl (pre ++ got)) ∧ got.length = n := by
  induction n generalizing s pre got with
  | zero =>
    cases h with
    | nil => exact ⟨by rwa [List.append_nil], rfl⟩
  | succ n ih =>
    rw [List.replicate_succ] at h
    cases h with
    | hash g h =>
      obtain ⟨ht, hlen⟩ :=
        ih _ (.hash g hs (by omega)) (by rw [List.length_append, List.length_singleton]; omega) h
      rw [List.append_assoc] at ht
      exact ⟨ht, by rw [List.length_cons, hlen]⟩

/-- Whatever the spacing, the engine is free again after the accesses, with the blocks hashed. -/
theorem hashing_done (cs : List (List Word)) (hsome : cs ≠ []) (hfull : ∀ ws ∈ cs, ws.length = 16)
    (hs : Driven s .free)
    (h :
      Executes s
        (sha256Init ++ (cs.flatMap blockAccesses ++ (doubling dbl ++ sha256Final))) t got) :
    Driven t .free ∧ got = (result cs dbl).words := by
  cases h with
  | cmd g _ h =>
    cases h with
    | cmd g' _ h =>
      obtain ⟨u, hu, hwritten⟩ := blocks_done cs hfull (.init g' (.rst g hs)) h
      rw [List.nil_append] at hu
      obtain ⟨v, hv, hdoubled⟩ := doubling_done hsome hu hwritten
      obtain ⟨ht, hlen⟩ := final_done 8 [] hv (by decide) hdoubled
      exact ⟨.finish ht hlen, hash_read ht hlen⟩

/-! ### The accesses come to an end -/

theorem wait_ends (g : Spacing) (K Q : Regs → Prop) {c : Chain} {m : ℕ}
    (hmeans : ∀ s, K s → Idle s ∧ Loaded s)
    (hbusy : ∀ s, K s → donePolled s g = false → K (transfer s g (readCmd g)))
    (hdone : ∀ s, K s → donePolled s g = true → Q (transfer s g (readCmd g))) (hs : K s)
    (hw : Within c ws m s) (hnext : ∀ u, Q u → ∃ t got, Executes u as t got) :
    ∃ t got, Executes s (.waitDone :: as) t got := by
  -- what is executed from a later poll is executed from the first
  obtain ⟨u, ⟨hu, hback⟩, hpoll⟩ := polling_ends (g := g)
    (K := fun u => K u ∧ ∀ t got, Executes u (.waitDone :: as) t got →
      Executes s (.waitDone :: as) t got)
    (fun u hu => hmeans u hu.1)
    (fun u hu hpoll => ⟨hbusy u hu.1 hpoll, fun t got h => hu.2 t got (.busy g hpoll h)⟩)
    ⟨hs, fun _ _ h => h⟩ hw
  obtain ⟨t, got, h⟩ := hnext _ (hdone u hu hpoll)
  exact ⟨t, got, hback t got (.done g hpoll h)⟩

theorem words_run (g : Spacing) (us : List Word) (hs : Driven s (.writing bs ws))
    (hfew : ws.length + us.length ≤ 16) (hnext : ∀ u, Driven u (.writing bs (ws ++ us)) →
      ∃ t got, Executes u as t got) :
    ∃ t got, Executes s (us.map .din ++ as) t got := by
  induction us generalizing s ws with
  | nil => exact hnext s (by rwa [List.append_nil])
  | cons u us ih =>
    rw [List.length_cons] at hfew
    obtain ⟨t, got, h⟩ := ih (.din g u hs (by omega))
      (by rw [List.length_append, List.length_singleton]; omega)
      fun v hv => hnext v (by rwa [List.append_assoc] at hv)
    exact ⟨t, got, .din g u h⟩

theorem blocks_run (g : Spacing) (cs : List (List Word)) (hfull : ∀ ws ∈ cs, ws.length = 16)
    (hs : Driven s (.writing bs []))
    (hnext : ∀ u, Driven u (.writing (bs ++ cs) []) → ∃ t got, Executes u as t got) :
    ∃ t got, Executes s (cs.flatMap blockAccesses ++ as) t got := by
  induction cs generalizing s bs with
  | nil => exact hnext s (by rwa [List.append_nil])
  | cons ws cs ih =>
    have hlen := hfull ws (List.mem_cons_self ..)
    rw [List.flatMap_cons, blockAccesses, List.append_assoc, List.append_assoc]
    refine words_run g ws hs (by rw [hlen]; decide) fun u hu => ?_
    rw [List.nil_append] at hu
    refine wait_ends g (fun s => Driven s (.writing bs ws))
      (fun s => Driven s (.writing (bs ++ [ws]) []))
      (fun s hs => ⟨(driven_meaning hs).1, (driven_meaning hs).2.1⟩)
      (fun s hs hpoll => .busy g hs hlen hpoll)
      (fun s hs hpoll => .done g hs hlen hpoll) hu ((driven_meaning hu).2.2.full hlen) fun v hv =>
      ?_
    exact ih (fun ws' hmem => hfull ws' (List.mem_cons_of_mem _ hmem)) hv fun x hx => hnext x (by
      rwa [List.append_assoc] at hx)

theorem doubling_run (g : Spacing) (hsome : bs ≠ []) (hs : Driven s (.writing bs []))
    (hnext : ∀ u, Driven u (.reading bs dbl []) → ∃ t got, Executes u as t got) :
    ∃ t got, Executes s (doubling dbl ++ as) t got := by
  cases dbl with
  | false => exact hnext s (.single hs hsome)
  | true =>
    have hdbl : Driven (transfer s g (writeCmd cmdDbl)) (.doubling bs) := .dbl g hs hsome
    obtain ⟨n, hbusy⟩ := (driven_meaning hdbl).2.2
    obtain ⟨t, got, h⟩ := wait_ends g (fun s => Driven s (.doubling bs))
      (fun s => Driven s (.reading bs true []))
      (fun s hs => ⟨(driven_meaning hs).1, (driven_meaning hs).2.1⟩)
      (fun s hs hpoll => .dblBusy g hs hpoll)
      (fun s hs hpoll => .dblDone g hs hpoll) hdbl (compressing_within hbusy) hnext
    exact ⟨t, got, .cmd g cmdDbl h⟩

theorem final_run (g : Spacing) (n : ℕ) (s : Regs) :
    ∃ t got, Executes s (List.replicate n .hash) t got := by
  induction n generalizing s with
  | zero => exact ⟨s, [], .nil s⟩
  | succ n ih =>
    obtain ⟨t, got, h⟩ := ih (transfer s g (readHash g))
    exact ⟨t, _ :: got, .hash g h⟩

theorem hashing_run (g : Spacing) (cs : List (List Word)) (hsome : cs ≠ [])
    (hfull : ∀ ws ∈ cs, ws.length = 16) (hs : Driven s .free) :
    ∃ t got,
      Executes s
        (sha256Init ++ (cs.flatMap blockAccesses ++ (doubling dbl ++ sha256Final))) t got := by
  have hdoubling (u : Regs) (hu : Driven u (.writing cs [])) :
      ∃ t got, Executes u (doubling dbl ++ sha256Final) t got :=
    doubling_run g hsome hu fun v _ => final_run g 8 v
  obtain ⟨t, got, h⟩ := blocks_run g cs hfull (.init g (.rst g hs)) hdoubling
  exact ⟨t, got, .cmd g cmdRst (.cmd g cmdInit h)⟩

end executes

/-! ### A message -/

theorem result_message (double : Bool) (input : List Byte) :
    ofWords (result (blocks (pad input)) double).words =
      if double then Sha256.dsha256 input else Sha256.sha256 input := by
  cases double <;> rfl

/-- **What `sha256` and `dsha256` write after INIT are the words of the padded message**, sixteen at
a time and each sixteen waited for; the calls can end, and whatever the spacing they leave the
engine between blocks. -/
theorem padded_words (double : Bool) (input : List Byte) (h : input.length < 2 ^ 29) :
    hashing double input =
      sha256Init ++
        ((blocks (pad input)).flatMap blockAccesses ++ (doubling double ++ sha256Final)) ∧
    (∀ ws ∈ blocks (pad input), ws.length = 16) ∧
    dins (hashing double input) = toWords ((pad input).length / 4) (pad input) ∧
    64 ∣ (pad input).length ∧
    ∀ s, Driven s .free →
      (∃ t got, Executes s (hashing double input) t got) ∧
      ∀ t got, Executes s (hashing double input) t got →
        Driven t .free ∧ Between t ∧ ofWords got = if double then Sha256.dsha256 input
          else Sha256.sha256 input := by
  have heq := hashing_eq double input h
  obtain ⟨n, hn, hpos⟩ := pad_length input
  have hfull : ∀ ws ∈ blocks (pad input), ws.length = 16 := fun ws hws => blocks_full _ ws hws
  have hsome : blocks (pad input) ≠ [] := by
    intro hnil
    have hlen := congrArg List.length hnil
    rw [blocks, List.length_map, List.length_range, hn, List.length_nil] at hlen
    omega
  refine ⟨heq, hfull, ?_, ⟨n, hn⟩, fun s hs => ⟨?_, fun t got hexec => ?_⟩⟩
  · have hend : dins (doubling double ++ sha256Final) = [] := by cases double <;> rfl
    have hblocks := dins_blocks (blocks (pad input))
    rw [blocks_words n _ hn] at hblocks
    rw [dins] at hend hblocks ⊢
    have hdiv : 64 * n / 4 = 16 * n := by omega
    rw [heq, List.filterMap_append, List.filterMap_append, hblocks, hend, hn, hdiv, List.append_nil]
    rfl
  · rw [heq]
    exact hashing_run ⟨[], ⟨false, false, false, 0, 0⟩⟩ _ hsome hfull hs
  · rw [heq] at hexec
    obtain ⟨ht, hgot⟩ := hashing_done _ hsome hfull hs hexec
    exact ⟨ht, (driven_meaning ht).2, by rw [hgot, result_message]⟩

theorem padded_words_abc :
    hashing true [0x61, 0x62, 0x63] =
      sha256Init ++
        ((blocks (pad [0x61, 0x62, 0x63])).flatMap blockAccesses ++
          (doubling true ++ sha256Final)) ∧
    (∀ ws ∈ blocks (pad [0x61, 0x62, 0x63]), ws.length = 16) ∧
    dins (hashing true [0x61, 0x62, 0x63]) =
      toWords ((pad [0x61, 0x62, 0x63]).length / 4) (pad [0x61, 0x62, 0x63]) ∧
      64 ∣ (pad [0x61, 0x62, 0x63]).length ∧
    ∀ s, Driven s .free →
      (∃ t got, Executes s (hashing true [0x61, 0x62, 0x63]) t got) ∧
      ∀ t got, Executes s (hashing true [0x61, 0x62, 0x63]) t got →
        Driven t .free ∧ Between t ∧ ofWords got =
          if true then Sha256.dsha256 [0x61, 0x62, 0x63] else Sha256.sha256 [0x61, 0x62, 0x63] :=
  padded_words true [0x61, 0x62, 0x63] (by decide)

/- The one-block test of sha256_test.c. -/
example : dins (sha256 [0x61, 0x62, 0x63] 3) = [0x61626380] ++ List.replicate 14 0 ++ [0x18] := by
  decide

end HashRatio.ShaProgram
