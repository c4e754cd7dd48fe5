/-
The initial stack of a program (`build_initial_user_stack`, core/syscall/exec.rs), read back as the program reads it.

The page is laid out from its start, the pointers in it are counted from its end.

- `build_eq`: what fits in a page is built, without an overflow; the test of the page's length never fails.
- `initial_stack_abi`: from the stack pointer on a program finds its arguments, environment and auxiliary vector.
-/
import SwiftCore.Launch.Image

namespace SwiftCore.Launch

open Bytes Checked Function
open Exec (add_eq sub_eq mul_eq ok_bind)

/-! ## Strings -/

/-- the NUL-terminated string at `off` -/
def stringIn (bs : List UInt8) (off : ℕ) : List UInt8 := (bs.drop off).takeWhile (· ≠ 0)

theorem takeWhile_stop {α : Type} [DecidableEq α] {z : α} {s : List α} (h : z ∉ s) (rest : List α) :
    (s ++ z :: rest).takeWhile (· ≠ z) = s ∧ (s ++ z :: rest).dropWhile (· ≠ z) = z :: rest := by
  have hs : ∀ a ∈ s, decide (a ≠ z) = true := fun a ha => decide_eq_true fun hz => h (hz ▸ ha)
  rw [List.takeWhile_append_of_pos hs, List.dropWhile_append_of_pos hs]
  simp

theorem length_stringBlock_cons (s : List UInt8) (strs : List (List UInt8)) :
    (stringBlock (s :: strs)).length = s.length + 1 + (stringBlock strs).length := by
  rw [stringBlock, List.flatMap_cons, List.length_append, List.length_append]
  rfl

@[simp] theorem length_offsets (strs : List (List UInt8)) (n : ℕ) : (offsets strs n).length = strs.length := by
  induction strs generalizing n with
  | nil => rfl
  | cons s strs ih => rw [offsets, List.length_cons, List.length_cons, ih]

/-- every string starts inside the block -/
theorem offsets_le {strs : List (List UInt8)} {n off : ℕ} (h : off ∈ offsets strs n) :
    off ≤ n + (stringBlock strs).length := by
  induction strs generalizing n with
  | nil => exact absurd h List.not_mem_nil
  | cons s strs ih =>
    rw [length_stringBlock_cons]
    rcases List.mem_cons.1 h with rfl | h
    · omega
    · have := ih h
      omega

/-- each string is found at its offset, and ends inside the block -/
theorem stringIn_offsets {strs : List (List UInt8)} (h : ∀ s ∈ strs, 0 ∉ s) (pre post : List UInt8) :
    (offsets strs pre.length).map (stringIn (pre ++ (stringBlock strs ++ post))) = strs ∧
      ∀ off ∈ offsets strs pre.length,
        off + (stringIn (pre ++ (stringBlock strs ++ post)) off).length < pre.length + (stringBlock strs).length := by
  induction strs generalizing pre with
  | nil => exact ⟨rfl, fun off hoff => absurd hoff List.not_mem_nil⟩
  | cons s strs ih =>
    have hblock : stringBlock (s :: strs) ++ post = s ++ 0 :: (stringBlock strs ++ post) := by simp [stringBlock]
    have hs : stringIn (pre ++ (stringBlock (s :: strs) ++ post)) pre.length = s := by
      rw [stringIn, List.drop_left, hblock]
      exact (takeWhile_stop (h s List.mem_cons_self) _).1
    have hrest := ih (fun t ht => h t (List.mem_cons_of_mem _ ht)) (pre ++ (s ++ [0]))
    have hlen : (pre ++ (s ++ [0])).length = pre.length + (s.length + 1) := by simp
    have happend : pre ++ (s ++ [0]) ++ (stringBlock strs ++ post) = pre ++ (stringBlock (s :: strs) ++ post) := by
      simp [hblock]
    rw [hlen, happend] at hrest
    refine ⟨by rw [offsets, List.map_cons, hs, hrest.1], fun off hoff => ?_⟩
    rw [length_stringBlock_cons]
    rcases List.mem_cons.1 hoff with rfl | hoff
    · rw [hs]
      omega
    · have := hrest.2 off hoff
      omega

theorem length_randomBytes (n : ℕ) (rng : UInt64) : (randomBytes n rng).length = n := by
  induction n generalizing rng with
  | zero => rfl
  | succ n ih => rw [randomBytes, List.length_cons, ih]

theorem pointers_eq {areaBase : ℕ} {offs : List ℕ} (h : ∀ off ∈ offs, areaBase + off < 2 ^ 64) :
    pointers areaBase offs = .ok ((offs.map (areaBase + ·)).flatMap (leBytes 8)) := by
  induction offs with
  | nil => rfl
  | cons off offs ih =>
    rw [pointers, add_eq (h off List.mem_cons_self), ok_bind, ih fun o ho => h o (List.mem_cons_of_mem _ ho), ok_bind]
    rfl

/-! ## The page -/

/-- what a stack is built from -/
structure Contents where
  seed : UInt64
  argv : List (List UInt8)
  envp : List (List UInt8)
  execfn : List UInt8
  auxv : List (ℕ × ℕ)

/-- an entry of the auxiliary vector as the program finds it -/
def resolve (randomAddr execfnAddr : ℕ) (e : ℕ × ℕ) : ℕ × ℕ :=
  (e.1, if e.1 = 25 then randomAddr else if e.1 = 31 then execfnAddr else e.2)

namespace Contents

variable (c : Contents)

def build : Exec InitialUserStack := buildInitialUserStack c.seed c.argv c.envp c.execfn c.auxv

def strings : List UInt8 := stringArea c.seed c.argv c.envp c.execfn

/-- `total_data_needed` -/
def needed : ℕ := c.strings.length + (8 + c.argv.length * 8 + 8 + c.envp.length * 8 + 8 + c.auxv.length * 16)

/-- `total_size`: strings, pointers and padding -/
def size : ℕ := c.needed + paddingLen c.needed

/-- `string_area_base` -/
def areaBase : ℕ := stackEnd c.seed - c.strings.length

def randomOffset : ℕ := (stringBlock c.argv).length + (stringBlock c.envp).length

def randomAddr : ℕ := c.areaBase + c.randomOffset

def execfnAddr : ℕ := c.areaBase + (c.randomOffset + 16)

def argvPtrs : List ℕ := (offsets c.argv 0).map (c.areaBase + ·)

def envpPtrs : List ℕ := (offsets c.envp (stringBlock c.argv).length).map (c.areaBase + ·)

def entries : List (ℕ × ℕ) := c.auxv.map (resolve c.randomAddr c.execfnAddr)

/-- the words at the stack pointer -/
def words : List ℕ :=
  c.argv.length :: (c.argvPtrs ++ 0 :: (c.envpPtrs ++ 0 :: c.entries.flatMap fun e => [e.1, e.2]))

/-- the count, the arguments and the environment -/
def front : List ℕ := c.argv.length :: (c.argvPtrs ++ 0 :: (c.envpPtrs ++ [0]))

def page : List UInt8 :=
  List.replicate (4096 - c.size) 0 ++ c.words.flatMap (leBytes 8) ++ List.replicate (paddingLen c.needed) 0 ++ c.strings

/-- what lies behind them in the page -/
def back : List UInt8 :=
  (c.entries.flatMap fun e => [e.1, e.2]).flatMap (leBytes 8) ++ (List.replicate (paddingLen c.needed) 0 ++ c.strings)

theorem page_eq : c.page = List.replicate (4096 - c.size) 0 ++ (c.front.flatMap (leBytes 8) ++ c.back) := by
  have hwords : c.words = c.front ++ c.entries.flatMap fun e => [e.1, e.2] := by simp [words, front]
  rw [page, hwords, back, List.flatMap_append]
  simp only [List.append_assoc]

/-- the stack that is built -/
def stack : InitialUserStack :=
  ⟨stackEnd c.seed - userStackSizePages * 4096, stackEnd c.seed, stackEnd c.seed - c.size, c.page⟩

theorem stack_pageData : c.stack.pageData = c.page := rfl

theorem stack_end : c.stack.stackEndVaddr = stackEnd c.seed := rfl

theorem stack_rsp : c.stack.initialRsp = stackEnd c.seed - c.size := rfl

/-- how the sizes relate -/
theorem layout : (2 ^ 32 < stackEnd c.seed ∧ stackEnd c.seed < 2 ^ 63) ∧
    c.strings.length + 8 * c.argv.length < c.size ∧ c.strings.length = c.randomOffset + 16 + (c.execfn.length + 1) ∧
    c.randomOffset = (stringBlock c.argv).length + (stringBlock c.envp).length := by
  have hend := stackEnd_bounds c.seed
  refine ⟨?_, ?_, ?_, rfl⟩
  · unfold stackTopBase at hend
    omega
  · unfold size needed
    omega
  · simp [strings, stringArea, randomOffset, length_randomBytes, Nat.add_assoc]

theorem words_bytes : c.words.flatMap (leBytes 8) = leBytes 8 c.argv.length ++ c.argvPtrs.flatMap (leBytes 8) ++
    leBytes 8 0 ++ c.envpPtrs.flatMap (leBytes 8) ++ leBytes 8 0 ++
    c.auxv.flatMap (auxvBytes c.randomAddr c.execfnAddr) := by
  simp [words, entries, List.flatMap_map, List.flatMap_assoc, resolve]
  rfl

variable {c}

theorem length_page (h : c.size ≤ 4096) : c.page.length = 4096 := by
  simp only [size, needed] at h
  simp [page, words, argvPtrs, envpPtrs, entries, size, needed, List.length_flatMap, comp_def]
  omega

variable (c)

/-- **What fits in a page is built;** the test of the page's length never fails. -/
theorem build_eq : c.build = if 4096 < c.size then .absent else .ok c.stack := by
  have hshift : aslrOffsetPages (c.seed ^^^ 0x53a91e2d) stackAslrMaxPages * 4096 < 2 ^ 64 := by
    have hlt := @aslrOffsetPages_lt (c.seed ^^^ 0x53a91e2d) stackAslrMaxPages (by decide)
    unfold stackAslrMaxPages at hlt ⊢
    omega
  obtain ⟨hend, hlen, harea, hrandom⟩ := c.layout
  rw [build, buildInitialUserStack, mul_eq hshift, ok_bind]
  simp only [← show stackEnd c.seed = stackTopBase - _ from rfl, ← show c.strings = stringArea _ _ _ _ from rfl,
    ← show c.needed = c.strings.length + _ from rfl, ← show c.size = c.needed + _ from rfl]
  rw [sub_eq (by unfold userStackSizePages; omega), ok_bind]
  by_cases h : 4096 < c.size
  · rw [if_pos h, if_pos h]
  have hunused : unusedSpace c.size = 4096 - c.size := by
    unfold unusedSpace
    split_ifs
    all_goals omega
  have hpage := length_page (Nat.not_lt.1 h)
  rw [if_neg h, if_neg h, sub_eq (by omega), ok_bind, add_eq (by omega), ok_bind, add_eq (by omega), ok_bind,
    sub_eq (by omega), ok_bind, pointers_eq fun off hoff => ?_, ok_bind, pointers_eq fun off hoff => ?_, ok_bind]
  · rw [page, words_bytes] at hpage
    unfold stack
    rw [page, words_bytes]
    simp only [← List.append_assoc, ← hunused] at hpage ⊢
    exact if_neg (not_not.2 hpage)
  · have := offsets_le hoff
    omega
  · have := offsets_le hoff
    omega

end Contents

/-- **The stack is built without an overflow, or refused;** if it is built its page is full. -/
theorem returns_buildInitialUserStack (seed : UInt64) (argv envp : List (List UInt8)) (execfn : List UInt8)
    (auxv : List (ℕ × ℕ)) : Returns (buildInitialUserStack seed argv envp execfn auxv) fun st =>
      st.stackEndVaddr = stackEnd seed ∧ st.stackBaseVaddr = stackEnd seed - userStackSizePages * 4096 ∧
        st.pageData.length = 4096 := by
  change Returns (Contents.mk seed argv envp execfn auxv).build _
  rw [Contents.build_eq]
  by_cases h : 4096 < (Contents.mk seed argv envp execfn auxv).size
  · rw [if_pos h]
    trivial
  · rw [if_neg h]
    exact ⟨rfl, rfl, Contents.length_page (Nat.not_lt.1 h)⟩

/-! ## Reading it back -/

/-- the words in a range of memory -/
def wordsOf (bs : List UInt8) : List ℕ := (List.range (bs.length / 8)).map fun k => field bs (8 * k) 8

def pairsOf : ℕ → List ℕ → List (ℕ × ℕ)
  | n + 1, key :: value :: ws => (key, value) :: pairsOf n ws
  | _, _ => []

/-- what a program finds on its stack; strings are given by their addresses -/
structure Found where
  argv : List ℕ
  envp : List ℕ
  auxv : List (ℕ × ℕ)

/-- the count, the arguments and a NULL, the environment and a NULL, `n` pairs -/
def decode (n : ℕ) : List ℕ → Option Found
  | argc :: ws =>
    match ws.drop argc with
    | 0 :: rest => some ⟨ws.take argc, rest.takeWhile (· ≠ 0), pairsOf n (rest.dropWhile (· ≠ 0)).tail⟩
    | _ => none
  | [] => none

namespace InitialUserStack

variable (st : InitialUserStack)

/-- the bytes from an address in the top page on -/
def bytesAt (addr : ℕ) : List UInt8 := st.pageData.drop (addr - (st.stackEndVaddr - 4096))

def stringAt (ptr : ℕ) : List UInt8 := (st.bytesAt ptr).takeWhile (· ≠ 0)

/-- a string and its NUL are in the top page, apart from the 16 bytes at `random` -/
def Places (random ptr : ℕ) : Prop :=
  st.stackEndVaddr - 4096 ≤ ptr ∧ ptr + (st.stringAt ptr).length < st.stackEndVaddr ∧
    (ptr + (st.stringAt ptr).length < random ∨ random + 16 ≤ ptr)

end InitialUserStack

/-- what the ABI asks of the stack that is built -/
structure FollowsAbi (c : Contents) (st : InitialUserStack) : Prop where
  page : st.pageData.length = 4096
  aligned : 16 ∣ st.initialRsp
  top : st.stackEndVaddr - 4096 ≤ st.initialRsp ∧ st.initialRsp < st.stackEndVaddr
  /-- read from the stack pointer on, it gives back what it was built from -/
  reads : ∃ found random execfnAddr,
    decode c.auxv.length (wordsOf (st.bytesAt st.initialRsp)) = some found ∧
    found.argv.map st.stringAt = c.argv ∧ found.envp.map st.stringAt = c.envp ∧
    found.auxv = c.auxv.map (resolve random execfnAddr) ∧ st.stringAt execfnAddr = c.execfn ∧
    (∀ ptr ∈ execfnAddr :: (found.argv ++ found.envp), st.Places random ptr) ∧
    st.stackEndVaddr - 4096 ≤ random ∧ random + 16 ≤ st.stackEndVaddr ∧
    (st.bytesAt random).take 16 = randomBytes 16 (nextRandom c.seed)

theorem wordsOf_leBytes (n : ℕ) (bs : List UInt8) : wordsOf (leBytes 8 n ++ bs) = n % 2 ^ 64 :: wordsOf bs := by
  have hlen : (leBytes 8 n ++ bs).length / 8 = bs.length / 8 + 1 := by
    rw [List.length_append, length_leBytes]
    omega
  rw [wordsOf, hlen, List.range_succ_eq_map, List.map_cons, List.map_map, wordsOf]
  refine List.cons_eq_cons.2 ⟨?_, List.map_congr_left fun k _ => ?_⟩
  · rw [field, Nat.mul_zero, List.drop_zero, List.take_left' (length_leBytes 8 n), ofLe_leBytes]
    norm_num
  · have hdrop : (leBytes 8 n ++ bs).drop (8 * (k + 1)) = bs.drop (8 * k) := by
      rw [Nat.mul_succ, Nat.add_comm, ← List.drop_drop, List.drop_left' (length_leBytes 8 n)]
    rw [comp_apply, field, hdrop, field]

theorem wordsOf_flatMap {ws : List ℕ} (h : ∀ w ∈ ws, w < 2 ^ 64) (bs : List UInt8) :
    wordsOf (ws.flatMap (leBytes 8) ++ bs) = ws ++ wordsOf bs := by
  induction ws with
  | nil => rfl
  | cons w ws ih =>
    rw [List.flatMap_cons, List.append_assoc, wordsOf_leBytes, Nat.mod_eq_of_lt (h w List.mem_cons_self),
      ih fun v hv => h v (List.mem_cons_of_mem _ hv), List.cons_append]

theorem pairsOf_flatMap (l : List (ℕ × ℕ)) (ws : List ℕ) :
    pairsOf l.length (l.flatMap (fun e => [e.1, e.2]) ++ ws) = l := by
  induction l with
  | nil => simp [pairsOf]
  | cons e l ih => simpa [pairsOf] using ih

namespace Contents

variable {c : Contents} (h : c.size ≤ 4096)

include h

/-- an address in the string area, seen from the page -/
theorem addr_bounds {off : ℕ} (hoff : off ≤ c.strings.length) :
    stackEnd c.seed - 4096 ≤ c.areaBase + off ∧ 0 < c.areaBase ∧ c.areaBase + off ≤ stackEnd c.seed := by
  have := c.layout
  unfold areaBase
  omega

/-- the two views meet: the strings are where the pointers point -/
theorem bytesAt_stack (off : ℕ) : c.stack.bytesAt (c.areaBase + off) = c.strings.drop off := by
  have hpage := length_page h
  have hoff : c.areaBase + off - (stackEnd c.seed - 4096) = 4096 - c.strings.length + off := by
    have := c.layout
    unfold areaBase
    omega
  rw [page, List.length_append] at hpage
  rw [InitialUserStack.bytesAt, stack_pageData, stack_end, hoff, ← List.drop_drop, page, List.drop_left' (by omega)]

theorem front_lt : ∀ w ∈ c.front, w < 2 ^ 64 := by
  obtain ⟨hend, hlen, harea, hrandom⟩ := c.layout
  have hptr {off : ℕ} (hoff : off ≤ c.strings.length) : c.areaBase + off < 2 ^ 64 := by
    have := addr_bounds h hoff
    omega
  intro w hw
  simp only [front, argvPtrs, envpPtrs, List.mem_cons, List.mem_append, List.mem_map, List.not_mem_nil, or_false] at hw
  rcases hw with rfl | ⟨off, hoff, rfl⟩ | rfl | ⟨off, hoff, rfl⟩ | rfl
  · omega
  · have := offsets_le hoff
    exact hptr (by omega)
  · norm_num
  · have := offsets_le hoff
    exact hptr (by omega)
  · norm_num

/-- what a program finds, whatever the auxiliary vector -/
theorem decode_front (n : ℕ) : decode n (wordsOf (c.stack.bytesAt c.stack.initialRsp)) =
    some ⟨c.argvPtrs, c.envpPtrs, pairsOf n (wordsOf c.back)⟩ := by
  have hoff : stackEnd c.seed - c.size - (stackEnd c.seed - 4096) = 4096 - c.size := by
    have := c.layout
    omega
  have henvp : 0 ∉ c.envpPtrs := fun hmem => by
    obtain ⟨off, -, hoff⟩ := List.mem_map.1 hmem
    have := addr_bounds h (Nat.zero_le _)
    omega
  have hargc : c.argv.length = c.argvPtrs.length := by simp [argvPtrs]
  rw [InitialUserStack.bytesAt, stack_pageData, stack_end, stack_rsp, hoff, page_eq,
    List.drop_left' List.length_replicate, wordsOf_flatMap (front_lt h), front, hargc]
  simp only [List.cons_append, List.append_assoc, List.nil_append]
  rw [decode, List.drop_left]
  change some (Found.mk _ _ _) = _
  rw [List.take_left, (takeWhile_stop henvp _).1, (takeWhile_stop henvp _).2, List.tail_cons]

theorem decode_stack (hauxv : ∀ e ∈ c.auxv, e.1 < 2 ^ 64 ∧ e.2 < 2 ^ 64) :
    decode c.auxv.length (wordsOf (c.stack.bytesAt c.stack.initialRsp)) =
      some ⟨c.argvPtrs, c.envpPtrs, c.entries⟩ := by
  have hlt : ∀ w ∈ c.entries.flatMap fun e => [e.1, e.2], w < 2 ^ 64 := by
    obtain ⟨hend, hlen, harea, hrandom⟩ := c.layout
    intro w hw
    simp only [entries, List.mem_cons, List.mem_map, List.mem_flatMap, List.not_mem_nil, or_false,
      exists_exists_and_eq_and, resolve] at hw
    obtain ⟨e, he, rfl | rfl⟩ := hw
    · exact (hauxv e he).1
    · have hrandomAddr := addr_bounds h (show c.randomOffset ≤ _ by omega)
      have hexecfnAddr := addr_bounds h (show c.randomOffset + 16 ≤ _ by omega)
      unfold randomAddr execfnAddr
      split_ifs
      · omega
      · omega
      · exact (hauxv e he).2
  have hcount : c.auxv.length = c.entries.length := by simp [entries]
  rw [decode_front h, back, wordsOf_flatMap hlt, hcount, pairsOf_flatMap]

theorem stringAt_stack (off : ℕ) : c.stack.stringAt (c.areaBase + off) = stringIn c.strings off := by
  rw [InitialUserStack.stringAt, bytesAt_stack h, stringIn]

/-- a block of the strings, found through the pointers to it -/
theorem strings_found {strs : List (List UInt8)} (hnul : ∀ s ∈ strs, 0 ∉ s) (pre : List UInt8) {post : List UInt8}
    (hblock : c.strings = pre ++ (stringBlock strs ++ post)) :
    ((offsets strs pre.length).map (c.areaBase + ·)).map c.stack.stringAt = strs ∧
      ∀ ptr ∈ (offsets strs pre.length).map (c.areaBase + ·), c.areaBase ≤ ptr ∧
        ptr + (c.stack.stringAt ptr).length < c.areaBase + (pre.length + (stringBlock strs).length) := by
  obtain ⟨hmap, hends⟩ := stringIn_offsets hnul pre post
  rw [← hblock] at hmap hends
  refine ⟨?_, fun ptr hptr => ?_⟩
  · rw [List.map_map]
    refine (List.map_congr_left fun off _ => ?_).trans hmap
    rw [comp_apply, stringAt_stack h]
  · obtain ⟨off, hoff, rfl⟩ := List.mem_map.1 hptr
    have := hends off hoff
    rw [stringAt_stack h]
    omega

omit h in
theorem strings_eq : c.strings = stringBlock c.argv ++ (stringBlock c.envp ++ (randomBytes 16 (nextRandom c.seed) ++
    stringBlock [c.execfn])) := by simp [strings, stringArea, stringBlock]

theorem stack_abi (hnul : ∀ s ∈ c.execfn :: (c.argv ++ c.envp), 0 ∉ s)
    (hauxv : ∀ e ∈ c.auxv, e.1 < 2 ^ 64 ∧ e.2 < 2 ^ 64) : FollowsAbi c c.stack := by
  obtain ⟨hend, hlen, harea, hsum⟩ := c.layout
  have hlow := addr_bounds h (Nat.zero_le _)
  have hhigh := addr_bounds h le_rfl
  have hrandom := length_randomBytes 16 (nextRandom c.seed)
  have hstrings := strings_eq (c := c)
  obtain ⟨hargv, hargvIn⟩ := strings_found h (fun s hs => hnul s (by simp [hs])) [] hstrings
  obtain ⟨henvp, henvpIn⟩ := strings_found h (fun s hs => hnul s (by simp [hs])) (stringBlock c.argv) hstrings
  have hpre : (stringBlock c.argv ++ (stringBlock c.envp ++ randomBytes 16 (nextRandom c.seed))).length =
      c.randomOffset + 16 := by simp [hrandom, hsum, Nat.add_assoc]
  obtain ⟨hexecfn, hexecfnIn⟩ := strings_found h (fun s hs => hnul s (by simp [List.mem_singleton.1 hs]))
    (stringBlock c.argv ++ (stringBlock c.envp ++ randomBytes 16 (nextRandom c.seed)))
    (show _ = _ ++ (stringBlock [c.execfn] ++ []) by simp [hstrings])
  rw [hpre] at hexecfn hexecfnIn
  refine ⟨length_page h, ?_, ?_, ⟨c.argvPtrs, c.envpPtrs, c.entries⟩, c.randomAddr, c.execfnAddr, decode_stack h hauxv,
    hargv, henvp, rfl, (List.cons.inj hexecfn).1, fun ptr hptr => ?_, ?_, ?_, ?_⟩
  · exact Nat.dvd_sub (by unfold stackEnd stackTopBase; omega) (by unfold size paddingLen; omega)
  · rw [stack_rsp, stack_end]
    omega
  · unfold InitialUserStack.Places randomAddr
    simp only [stack_end, List.mem_cons, List.mem_append] at hptr ⊢
    rcases hptr with rfl | hptr | hptr
    · have hlast : (stringBlock [c.execfn]).length = c.execfn.length + 1 := by simp [stringBlock]
      have hat : c.execfnAddr = c.areaBase + (c.randomOffset + 16) := rfl
      have := hexecfnIn c.execfnAddr List.mem_cons_self
      omega
    · have := hargvIn ptr hptr
      simp only [List.length_nil] at this
      omega
    · have := henvpIn ptr hptr
      omega
  · exact (addr_bounds h (by omega)).1
  · rw [stack_end, randomAddr, Nat.add_assoc]
    exact (addr_bounds h (by omega)).2.2
  · rw [randomAddr, bytesAt_stack h, hstrings, hsum, ← List.append_assoc, List.drop_left' List.length_append,
      List.take_left' hrandom]

end Contents

open Contents in
/-- **The initial stack follows the ABI.** It is built iff strings, pointers and padding fit in the top page. -/
theorem initial_stack_abi (c : Contents) (hnul : ∀ s ∈ c.execfn :: (c.argv ++ c.envp), 0 ∉ s)
    (hauxv : ∀ e ∈ c.auxv, e.1 < 2 ^ 64 ∧ e.2 < 2 ^ 64) :
    ((∃ st, c.build = .ok st) ↔ c.size ≤ 4096) ∧ ∀ st, c.build = .ok st → FollowsAbi c st := by
  rw [build_eq]
  split_ifs with h
  · exact ⟨⟨fun ⟨_, hst⟩ => (nomatch hst), fun hle => absurd h (Nat.not_lt.2 hle)⟩, fun st hst => nomatch hst⟩
  · refine ⟨⟨fun _ => Nat.not_lt.1 h, fun _ => ⟨c.stack, rfl⟩⟩, fun st hst => ?_⟩
    obtain rfl := Exec.ok.inj hst
    exact stack_abi (Nat.not_lt.1 h) hnul hauxv

/-- one argument, one string of the environment -/
def oneArgument : Contents := ⟨0, [[0x61]], [[0x62, 0x3D]], [0x2F], [(25, 0), (31, 0), (0, 0)]⟩

theorem initial_stack_abi_one : ∃ st, oneArgument.build = .ok st ∧ FollowsAbi oneArgument st := by
  obtain ⟨hfits, habi⟩ := initial_stack_abi oneArgument (by decide) (by decide)
  obtain ⟨st, hst⟩ := hfits.2 (by decide)
  exact ⟨st, hst, habi st hst⟩

end SwiftCore.Launch
