import BlockTree.Checked.Cursor
import BlockTree.Proofs.Cursors

/-!
# Blocks in machine words

Cursors over fewer bytes than words can count stay in range: `BlockCursor.InRange` is what one step
keeps, and so it holds wherever a cursor comes to. What a machine hands out there is the next block,
and it has the answer of the cursor to every use: `Checked.use?_eq`. Each cursor comes to a place
behind the one that it comes from, whatever is done with it and with its copies:
`Checked.run?_later`.
-/

namespace BlockTree

variable {D : Type} {size blockSize k : Nat} {data : ByteArray}

-- ---------------------------------------------------------------------------
-- Cursors in range
-- ---------------------------------------------------------------------------

theorem blockCount_le_size (hb : 0 < blockSize) : blockCount size blockSize ≤ size := by
  refine Nat.not_lt.mp fun hlt => ?_
  have hstart : size * blockSize < size := (lt_blockCount_iff hb).mp hlt
  exact Nat.not_lt.mpr (Nat.le_mul_of_pos_right size hb) hstart

theorem blockCount_eq (hb : 0 < blockSize) :
    blockCount size blockSize =
      if size % blockSize = 0 then size / blockSize else size / blockSize + 1 := by
  have hsum := Nat.div_add_mod' size blockSize
  have hrest := Nat.mod_lt size hb
  split
  · exact Nat.div_eq_of_lt_le (by omega) (by rw [Nat.succ_mul]; omega)
  · exact Nat.div_eq_of_lt_le (by rw [Nat.succ_mul]; omega) (by simp only [Nat.succ_mul]; omega)

theorem Checked.divCeil?_eq (hb : 0 < blockSize) (hsize : size < wordLimit) :
    divCeil? size blockSize = some (blockCount size blockSize) := by
  have hword : blockCount size blockSize < wordLimit :=
    Nat.lt_of_le_of_lt (blockCount_le_size hb) hsize
  rw [blockCount_eq hb] at hword ⊢
  rw [divCeil?, if_neg (Nat.ne_of_gt hb)]
  by_cases hrest : size % blockSize = 0
  · rw [if_pos hrest, if_pos hrest]
  · rw [if_neg hrest] at hword
    rw [if_neg hrest, if_neg hrest, add?_eq hword]

theorem Checked.start?_eq (hb : 0 < blockSize) (hsize : size < wordLimit) :
    start? size blockSize = some (.ofSize size blockSize) := by
  simp only [start?, divCeil?_eq hb hsize]
  rfl

namespace BlockCursor

/-- A cursor over the blocks of fewer bytes than words can count. -/
structure InRange (c : BlockCursor) : Prop where
  size_lt : c.size < wordLimit
  blockSize_pos : 0 < c.blockSize
  count_eq : c.count = blockCount c.size c.blockSize
  next_le : c.next ≤ c.count

theorem inRange_ofSize (hb : 0 < blockSize) (hsize : size < wordLimit) :
    (ofSize size blockSize).InRange :=
  ⟨hsize, hb, rfl, Nat.zero_le _⟩

variable {c rest last : BlockCursor} {b : Block} {blocks : List Block}

theorem next?_eq_some :
    c.next? = some (b, rest) ↔
      c.next < c.count ∧ Block.nth c.size c.blockSize c.next = b ∧
        { c with next := c.next + 1 } = rest := by
  unfold next?
  split <;> simp_all

namespace InRange

theorem next (h : c.InRange) (hnext : c.next? = some (b, rest)) :
    rest.InRange ∧ rest.size = c.size ∧ b.start + b.length ≤ c.size := by
  obtain ⟨hlt, rfl, rfl⟩ := next?_eq_some.mp hnext
  exact ⟨⟨h.size_lt, h.blockSize_pos, h.count_eq, hlt⟩, rfl,
    Block.nth_stop_le h.blockSize_pos (h.count_eq ▸ hlt)⟩

theorem skip (h : c.InRange) (n : Nat) : (c.skip n).InRange :=
  ⟨h.size_lt, h.blockSize_pos, h.count_eq, (next_skip h.next_le n).trans_le (min_le_left _ _)⟩

theorem checked_next (h : c.InRange) : Checked.next? c = some c.next? := by
  unfold Checked.next? next?
  by_cases hlt : c.next < c.count
  · have hsize := h.size_lt
    have hstart : c.next * c.blockSize < c.size :=
      (lt_blockCount_iff h.blockSize_pos).mp (h.count_eq ▸ hlt)
    have hcount : c.count ≤ c.size := h.count_eq ▸ blockCount_le_size h.blockSize_pos
    rw [if_neg (by omega), if_pos hlt, Checked.mul?_eq (by omega), Checked.add?_eq (by omega)]
    simp only [Option.bind_eq_bind, Option.bind_some, Checked.sub?_eq hstart.le]
    rfl
  · rw [if_pos (by omega), if_neg hlt]

theorem checked_remaining (h : c.InRange) : Checked.remaining? c = some c.remaining :=
  Checked.sub?_eq h.next_le

end InRange

theorem Yields.inRange (hyields : c.Yields blocks last) (h : c.InRange) :
    last.InRange ∧ ∀ b ∈ blocks, b.start + b.length ≤ c.size := by
  induction hyields with
  | refl c => exact ⟨h, nofun⟩
  | cons hnext _ ih =>
    obtain ⟨hrest, hsize, hstop⟩ := h.next hnext
    obtain ⟨hlast, hblocks⟩ := ih hrest
    exact ⟨hlast, List.forall_mem_cons.mpr ⟨hstop, hsize ▸ hblocks⟩⟩

end BlockCursor

namespace Checked

theorem range?_eq {b : Block} (h : b.start + b.length < wordLimit) :
    range? b = some (b.start, b.start + b.length) := by
  simp only [range?, add?_eq h]
  rfl

theorem blockSlice?_eq {b : Block} (hdata : data.size < wordLimit)
    (h : b.start + b.length ≤ data.size) : blockSlice? b data = some (b.bytes data) := by
  simp only [blockSlice?, range?_eq (Nat.lt_of_le_of_lt h hdata)]
  exact slice?_eq (Nat.le_add_right _ _) h

theorem leaves?_eq (H : Hasher D) {c : BlockCursor} (h : c.InRange) (hsize : c.size = data.size) :
    leaves? H data c = some (c.toList.map fun b => H.leaf (b.bytes data)) := by
  induction hl : c.toList generalizing c with
  | nil =>
    have hnone := BlockCursor.next?_of_toList_eq_nil hl
    rw [leaves?_of_none H data (h.checked_next.trans (congrArg some hnone))]
    rfl
  | cons b blocks ih =>
    obtain ⟨hnext, htail⟩ := BlockCursor.next?_of_toList_eq_cons hl
    obtain ⟨hrest, hkeeps, hstop⟩ := h.next hnext
    have hbytes := blockSlice?_eq (hsize ▸ h.size_lt) (hsize ▸ hstop)
    rw [leaves?_of_some H data (h.checked_next.trans (congrArg some hnext))]
    simp only [Option.bind_eq_bind, Option.bind_some, hbytes, ih hrest (hkeeps.trans hsize) htail]
    rfl

-- ---------------------------------------------------------------------------
-- The machine
-- ---------------------------------------------------------------------------

open BlockCursor (Step Use)

variable {c d : BlockCursor} {cursors after : List BlockCursor}

theorem take?_eq (h : c.InRange) : take? c = some (c.pull 0) := by
  rw [take?, h.checked_next, c.pull_zero_eq_next? h.next_le]
  cases c.next? <;> rfl

theorem nth?_eq (h : c.InRange) (n : Nat) : nth? n c = some (c.pull n) := by
  induction n generalizing c with
  | zero => exact take?_eq h
  | succ n ih =>
    rw [nth?, take?_eq h, BlockCursor.pull_eq h.next_le, BlockCursor.pull_eq h.next_le]
    cases hfirst : c.toList[0]? with
    | some b =>
      change nth? n (c.skip 1) = _
      rw [ih (h.skip 1), BlockCursor.pull_eq (h.skip 1).next_le, BlockCursor.skip_skip,
        BlockCursor.toList_skip h.next_le, List.getElem?_drop, Nat.add_comm 1, Nat.add_comm 1]
    | none =>
      have hmiss : c.remaining = 0 := by
        rw [← c.length_toList]
        exact Nat.le_zero.mp (List.getElem?_eq_none_iff.mp hfirst)
      rw [List.getElem?_eq_none (by rw [c.length_toList]; omega),
        BlockCursor.skip_eq_skip (m := n + 1 + 1) (n := 1) (by omega) (by omega)]
      rfl

theorem rest?_eq (h : c.InRange) : rest? c = some (c.toList, c.skip c.remaining) := by
  rw [← c.length_toList]
  induction hl : c.toList generalizing c with
  | nil =>
    have hnone := BlockCursor.next?_of_toList_eq_nil hl
    rw [rest?_of_none (h.checked_next.trans (congrArg some hnone)), List.length_nil,
      BlockCursor.skip_zero h.next_le]
  | cons b blocks ih =>
    obtain ⟨hnext, htail⟩ := BlockCursor.next?_of_toList_eq_cons hl
    rw [rest?_of_some (h.checked_next.trans (congrArg some hnext)), ih (h.skip 1) htail,
      BlockCursor.skip_skip, Nat.add_comm 1]
    rfl

theorem use?_eq (h : c.InRange) (u : Use) : use? c u = some (u.apply c) := by
  have hbounds : bounds? c = some (c.remaining, some c.remaining) := by
    rw [bounds?, h.checked_remaining]
    rfl
  cases u with
  | next => exact (take?_eq h).trans (congrArg some (Use.apply_next h.next_le).symm)
  | nth n => exact nth?_eq h n
  | length =>
    have hlength : length? c = some c.remaining := by
      rw [length?, hbounds]
      exact if_pos rfl
    rw [use?, hlength]
    rfl
  | bounds =>
    rw [use?, hbounds]
    rfl
  | last =>
    rw [use?, lastBlock?, rest?_eq h]
    exact congrArg (fun last => some (last, _)) c.last?_eq.symm
  | rest => exact rest?_eq h

/-- Whether each cursor has gone on from its place, and each that is new comes from one of them. -/
structure Later (cursors after : List BlockCursor) : Prop where
  goes_on : ∀ (k : Nat) (c : BlockCursor), cursors[k]? = some c → ∃ n, after[k]? = some (c.skip n)
  comes_from : ∀ d ∈ after, ∃ c ∈ cursors, ∃ n, d = c.skip n

section Runs

variable (h : ∀ c ∈ cursors, c.InRange)
include h

theorem later_refl : Later cursors cursors where
  goes_on k c hc := ⟨0, by rw [BlockCursor.skip_zero (h c (List.mem_of_getElem? hc)).next_le, hc]⟩
  comes_from c hc := ⟨c, hc, 0, (BlockCursor.skip_zero (h c hc).next_le).symm⟩

theorem step?_use (hk : cursors[k]? = some c) (u : Use) :
    step? cursors (.use k u) = some (cursors.set k (u.apply c).2) := by
  simp only [step?, hk, use?_eq (h c (List.mem_of_getElem? hk)) u]
  rfl

theorem step?_later (s : Step) :
    ∃ after, step? cursors s = some after ∧ Later cursors after := by
  obtain ⟨hsame, hself⟩ := later_refl h
  cases s with
  | copy k =>
    refine ⟨_, rfl, fun i c hc => ?_, fun d hd => ?_⟩
    · obtain ⟨n, hn⟩ := hsame i c hc
      refine ⟨n, ?_⟩
      rw [List.getElem?_append_left (List.getElem?_eq_some_iff.mp hn).1, hn]
    · rcases List.mem_append.mp hd with hd | hd
      · exact hself d hd
      · exact hself d (List.mem_of_getElem? (Option.mem_toList.mp hd))
  | use k u =>
    cases hk : cursors[k]? with
    | none => exact ⟨cursors, by rw [step?, hk], hsame, hself⟩
    | some c =>
      have hmem : c ∈ cursors := List.mem_of_getElem? hk
      obtain ⟨m, hm⟩ := Use.exists_skip_of_apply (h c hmem).next_le u
      have hstep : step? cursors (.use k u) = some (cursors.set k (c.skip m)) := by
        rw [step?_use h hk u, hm]
      refine ⟨_, hstep, fun i d hd => ?_, fun d hd => ?_⟩
      · by_cases hi : k = i
        · subst hi
          obtain rfl : c = d := Option.some.inj (hk.symm.trans hd)
          exact ⟨m, List.getElem?_set_self (List.getElem?_eq_some_iff.mp hk).1⟩
        · rw [List.getElem?_set_ne hi]
          exact hsame i d hd
      · rcases List.mem_or_eq_of_mem_set hd with hd | rfl
        · exact hself d hd
        · exact ⟨c, hmem, m, rfl⟩

end Runs

namespace Later

theorem inRange (hlater : Later cursors after) (h : ∀ c ∈ cursors, c.InRange) :
    ∀ c ∈ after, c.InRange := by
  intro d hd
  obtain ⟨c, hc, n, rfl⟩ := hlater.comes_from d hd
  exact (h c hc).skip n

theorem trans {last : List BlockCursor} (hlater : Later cursors after) (hlast : Later after last) :
    Later cursors last where
  goes_on k c hc := by
    obtain ⟨m, hm⟩ := hlater.goes_on k c hc
    obtain ⟨n, hn⟩ := hlast.goes_on k _ hm
    exact ⟨m + n, by rw [hn, BlockCursor.skip_skip]⟩
  comes_from d hd := by
    obtain ⟨e, he, n, rfl⟩ := hlast.comes_from d hd
    obtain ⟨c, hc, m, rfl⟩ := hlater.comes_from e he
    exact ⟨c, hc, m + n, BlockCursor.skip_skip c m n⟩

end Later

theorem run?_later (h : ∀ c ∈ cursors, c.InRange) (steps : List Step) :
    ∃ after, run? cursors steps = some after ∧ Later cursors after := by
  induction steps generalizing cursors with
  | nil => exact ⟨cursors, rfl, later_refl h⟩
  | cons s steps ih =>
    obtain ⟨next, hnext, hfirst⟩ := step?_later h s
    obtain ⟨after, hafter, hrest⟩ := ih (hfirst.inRange h)
    refine ⟨after, ?_, hfirst.trans hrest⟩
    rw [run?, List.foldlM_cons, hnext]
    exact hafter

/-- Only its own uses move a cursor. -/
theorem run?_untouched (steps : List Step) (hunused : ∀ u, .use k u ∉ steps)
    (hrun : run? cursors steps = some after) (hc : cursors[k]? = some c) : after[k]? = some c := by
  induction steps generalizing cursors with
  | nil => exact Option.some.inj hrun ▸ hc
  | cons s steps ih =>
    rw [run?, List.foldlM_cons, Option.bind_eq_bind, Option.bind_eq_some_iff] at hrun
    obtain ⟨next, hnext, hrun⟩ := hrun
    refine ih (fun u hu => hunused u (List.mem_cons_of_mem s hu)) hrun ?_
    cases s with
    | copy i =>
      cases hnext
      rw [List.getElem?_append_left (List.getElem?_eq_some_iff.mp hc).1, hc]
    | use i u =>
      have hi : i ≠ k := fun heq => hunused u (heq ▸ List.mem_cons_self)
      rw [step?] at hnext
      split at hnext
      · obtain ⟨⟨answer, moved⟩, -, hset⟩ := Option.bind_eq_some_iff.mp hnext
        cases hset
        rw [List.getElem?_set_ne hi, hc]
      · exact Option.some.inj hnext ▸ hc

end Checked

-- ---------------------------------------------------------------------------
-- Any use
-- ---------------------------------------------------------------------------

open BlockCursor (Use)

/-- Cursors over fewer bytes than words can count, under any steps on a first one and on its copies.
No place is past the count. A machine has every answer, which is that of the list of the blocks that
remain, and these remain after it. Asking for their number moves nothing. Uses of one cursor move
no other, hand out blocks in ascending order and, after a miss, none any more. -/
theorem cursors_under_any_use (hsize : size < wordLimit) (hb : 0 < blockSize) :
    ∃ first, Checked.start? size blockSize = some first ∧ ∀ steps, ∃ cursors,
      Checked.run? [first] steps = some cursors ∧
      ∀ (k : Nat) (c : BlockCursor), cursors[k]? = some c →
        (c.next ≤ c.count ∧ c.count = size ⌈/⌉ blockSize ∧ ∀ i, c.toList[i]? =
          if c.next + i < c.count then some (Block.nth size blockSize (c.next + i)) else none) ∧
        (∀ u : Use, Checked.use? c u = some (u.apply c) ∧
          (u.apply c).1 = (u.onList c.toList).1 ∧
          (u.apply c).2.toList = (u.onList c.toList).2 ∧
          (u.takes = false → (u.apply c).2 = c) ∧
          Checked.step? cursors (.use k u) = some (cursors.set k (u.apply c).2) ∧
          ∀ later, ∃ after d, Checked.run? (cursors.set k (u.apply c).2) later = some after ∧
            after[k]? = some d ∧ ∀ v : Use,
              (u.blocks (u.apply c).1 ++ v.blocks (v.apply d).1).Pairwise
                (fun a b => a.index < b.index) ∧
              (u.takes = true → u.blocks (u.apply c).1 = [] → v.blocks (v.apply d).1 = [])) ∧
        Checked.step? cursors (.copy k) = some (cursors ++ [c]) ∧
        ∀ later, (∀ u, .use k u ∉ later) →
          ∃ after, Checked.run? cursors later = some after ∧ after[k]? = some c := by
  have hfirst : ∀ c ∈ [BlockCursor.ofSize size blockSize], c.InRange :=
    List.forall_mem_singleton.mpr (BlockCursor.inRange_ofSize hb hsize)
  refine ⟨_, Checked.start?_eq hb hsize, fun steps => ?_⟩
  obtain ⟨cursors, hrun, hlater⟩ := Checked.run?_later hfirst steps
  have hall := hlater.inRange hfirst
  refine ⟨cursors, hrun, fun k c hk => ?_⟩
  have hc : c.InRange := hall c (List.mem_of_getElem? hk)
  -- Whichever cursor this is, it comes from the first one, so its fields but the place are known.
  obtain ⟨_, hmem, n, rfl⟩ := hlater.comes_from c (List.mem_of_getElem? hk)
  obtain rfl := List.mem_singleton.mp hmem
  refine ⟨⟨hc.next_le, (Nat.ceilDiv_eq_add_pred_div size blockSize).symm,
    BlockCursor.getElem?_toList _⟩, fun u => ?_, ?_, fun later hunused => ?_⟩
  · obtain ⟨hanswer, hlist⟩ := Use.apply_eq_onList hc.next_le u
    have hstep := Checked.step?_use hall hk u
    refine ⟨Checked.use?_eq hc u, hanswer, hlist, Use.apply_of_not_takes _, hstep,
      fun later => ?_⟩
    obtain ⟨next, hnext, hmoved⟩ := Checked.step?_later hall (.use k u)
    obtain rfl := Option.some.inj (hstep.symm.trans hnext)
    obtain ⟨after, hafter, hrest⟩ := Checked.run?_later (hmoved.inRange hall) later
    obtain ⟨m, hm⟩ := hrest.goes_on k _
      (List.getElem?_set_self (List.getElem?_eq_some_iff.mp hk).1)
    refine ⟨after, _, hafter, hm, fun v => ⟨?_, fun htakes hmiss => ?_⟩⟩
    · exact (BlockCursor.pairwise_toList _).sublist
        (Use.blocks_append_blocks_sublist hc.next_le rfl v)
    · exact Use.blocks_eq_nil_of_miss hc.next_le rfl htakes hmiss v
  · rw [Checked.step?, hk]
    rfl
  · obtain ⟨after, hafter, -⟩ := Checked.run?_later hall later
    exact ⟨after, hafter, Checked.run?_untouched later hunused hafter hk⟩

/-- As many one-byte blocks as words can count. The last of them is handed out at once and none is
left, while a copy that was made before still has them all. -/
theorem cursors_under_any_use_last_word :
    ∃ first c, Checked.start? 0xffffffffffffffff 1 = some first ∧
      Checked.use? first (.nth 0xfffffffffffffffe) =
        some (some ⟨0xfffffffffffffffe, 0xfffffffffffffffe, 1⟩, c) ∧
      Checked.run? [first] [.copy 0, .use 0 (.nth 0xfffffffffffffffe)] = some [c, first] ∧
      c.toList = [] ∧ Checked.use? first .length = some ((0xffffffffffffffff : Nat), first) := by
  obtain ⟨first, hstart, hsteps⟩ :=
    @cursors_under_any_use 0xffffffffffffffff 1 (by decide) (by decide)
  obtain ⟨cursors, hrun, hcursors⟩ := hsteps [.copy 0]
  obtain rfl : [first, first] = cursors := Option.some.inj hrun
  obtain ⟨⟨-, hcount, hlist⟩, huse, -⟩ := hcursors 0 first rfl
  obtain ⟨hnth, hanswer, hrest, -, hstep, -⟩ := huse (.nth 0xfffffffffffffffe)
  obtain ⟨hlength, hnumber, -, hsame, -⟩ := huse .length
  have hnext : first.next = 0 := by
    cases hstart
    rfl
  rw [Nat.ceilDiv_eq_add_pred_div] at hcount
  have hall : first.toList.length = 0xffffffffffffffff := by
    rw [BlockCursor.length_toList, BlockCursor.remaining, hcount, hnext]
  have hlast : first.toList[0xfffffffffffffffe]? =
      some ⟨0xfffffffffffffffe, 0xfffffffffffffffe, 1⟩ := by
    rw [hlist, hnext, hcount]
    exact if_pos (by decide)
  refine ⟨first, _, hstart, hnth.trans ?_, ?_, hrest.trans ?_, hlength.trans ?_⟩
  · exact congrArg some (Prod.ext (hanswer.trans hlast) rfl)
  · rw [Checked.run?, List.foldlM_cons]
    change (Checked.step? [first, first] _).bind _ = _
    rw [hstep]
    rfl
  · exact List.drop_eq_nil_of_le hall.le
  · exact congrArg some (Prod.ext (hnumber.trans hall) (hsame rfl))

end BlockTree
