import Mathlib.Data.List.TakeWhile
import Nameless.Text.Line
import Nameless.Text.Utf8

/-!
# Writing and reading text files

Every text is read back from its bytes, however the blocks cut them, and every
list of lines is read back from a file in which each of them is ended.
-/

namespace Nameless.Text

namespace Utf8

/-- The bytes of a text. -/
def encode (cs : List Char) : List UInt8 := cs.flatMap String.utf8EncodeChar

/-! ## One sequence -/

/-- Bytes that may go on a sequence after its first one. -/
def GoesOn (first : UInt8) : List UInt8 → Prop
  | [] => True
  | second :: rest =>
    mayFollow first second = true ∧ ∀ byte ∈ rest, isContinuation byte = true

/-- The bytes of one character. -/
structure IsSequence (first : UInt8) (rest : List UInt8) (c : Char) : Prop where
  width : width? first = some (rest.length + 1)
  goesOn : GoesOn first rest
  codePoint : Char.ofNat (codePoint first rest) = c

theorem GoesOn.take {first : UInt8} {rest : List UInt8} (h : GoesOn first rest)
    (k : Nat) : GoesOn first (rest.take k) := by
  cases rest with
  | nil => rwa [List.take_nil]
  | cons second rest =>
      cases k with
      | zero => exact trivial
      | succ k =>
          exact ⟨h.1, fun byte hbyte ↦ h.2 byte (List.mem_of_mem_take hbyte)⟩

theorem following_of_goesOn {first : UInt8} {more : Nat} {bytes : List UInt8}
    (h : GoesOn first (bytes.take more)) :
    following first more bytes = (bytes.take more).length := by
  rw [following]
  cases htake : bytes.take more with
  | nil => rfl
  | cons second rest =>
      rw [htake] at h
      dsimp only
      rw [if_pos h.1, List.takeWhile_eq_self_iff.2 h.2, List.length_cons,
        Nat.add_comm]

variable {first : UInt8} {rest : List UInt8} {c : Char}

theorem decodeFrom_sequence (h : IsSequence first rest c) (place : Nat)
    (bytes : List UInt8) :
    decodeFrom place (first :: rest ++ bytes) = do
      let (cs, held) ← decodeFrom (place + (rest.length + 1)) bytes
      return (c :: cs, held) := by
  have htake : (rest ++ bytes).take rest.length = rest := List.take_left
  have hgood : following first rest.length (rest ++ bytes) = rest.length := by
    rw [following_of_goesOn (by rw [htake]; exact h.goesOn), htake]
  rw [List.cons_append, decodeFrom, h.width]
  dsimp only
  rw [Nat.add_sub_cancel, if_pos hgood, List.drop_left, htake, h.codePoint]

/-- A sequence that a block cuts is left open. -/
theorem decodeFrom_cut (h : IsSequence first rest c) {k : Nat}
    (hk : k < rest.length) (place : Nat) :
    decodeFrom place (first :: rest.take k) = .ok ([], first :: rest.take k) := by
  have hlength : (rest.take k).length = k := List.length_take_of_le hk.le
  have htake : (rest.take k).take rest.length = rest.take k :=
    List.take_of_length_le (by omega)
  have hgood : following first rest.length (rest.take k) = k := by
    rw [following_of_goesOn (by rw [htake]; exact h.goesOn.take k), htake, hlength]
  rw [decodeFrom, h.width]
  dsimp only
  rw [Nat.add_sub_cancel, hgood, if_neg hk.ne, hlength]
  simp

/-! ## The sequence of a character -/

theorem toNat_ofNat {n : Nat} (h : n < 256) : (UInt8.ofNat n).toNat = n := by
  rw [UInt8.toNat_ofNat', Nat.mod_eq_of_lt h]

theorem isContinuation_of_toNat {byte : UInt8} (hlow : 0x80 ≤ byte.toNat)
    (hhigh : byte.toNat ≤ 0xbf) : isContinuation byte = true := by
  simp only [isContinuation, Bool.and_eq_true, decide_eq_true_eq,
    UInt8.le_iff_toNat_le]
  exact ⟨hlow, hhigh⟩

theorem mayFollow_of_toNat {byte : UInt8} (hlow : 0x80 ≤ byte.toNat)
    (hhigh : byte.toNat ≤ 0xbf) (he0 : first.toNat = 0xe0 → 0xa0 ≤ byte.toNat)
    (hed : first.toNat = 0xed → byte.toNat ≤ 0x9f)
    (hf0 : first.toNat = 0xf0 → 0x90 ≤ byte.toNat)
    (hf4 : first.toNat = 0xf4 → byte.toNat ≤ 0x8f) :
    mayFollow first byte = true := by
  simp only [mayFollow, Bool.and_eq_true, decide_eq_true_eq,
    UInt8.le_iff_toNat_le, ← UInt8.toNat_inj]
  constructor
  · split_ifs with h h'
    · exact he0 h
    · exact hf0 h'
    · exact hlow
  · split_ifs with h h'
    · exact hed h
    · exact hf4 h'
    · exact hhigh

theorem width?_of_toNat {width : Nat}
    (h : first.toNat < 0x80 ∧ width = 1 ∨
      0xc2 ≤ first.toNat ∧ first.toNat < 0xe0 ∧ width = 2 ∨
      0xe0 ≤ first.toNat ∧ first.toNat < 0xf0 ∧ width = 3 ∨
      0xf0 ≤ first.toNat ∧ first.toNat < 0xf5 ∧ width = 4) :
    width? first = some width := by
  simp only [width?, UInt8.lt_iff_toNat_lt]
  change (if first.toNat < 0x80 then some 1
    else if first.toNat < 0xc2 then none
    else if first.toNat < 0xe0 then some 2
    else if first.toNat < 0xf0 then some 3
    else if first.toNat < 0xf5 then some 4
    else none) = some width
  split_ifs <;> grind

variable {v : Nat}

theorem isSequence_one (hhigh : v ≤ 0x7f) :
    IsSequence (UInt8.ofNat v) [] (Char.ofNat v) := by
  have hfirst : (UInt8.ofNat v).toNat = v := toNat_ofNat (by omega)
  refine ⟨width?_of_toNat ?_, trivial, ?_⟩
  · exact .inl ⟨by omega, rfl⟩
  · change Char.ofNat (UInt8.ofNat v).toNat = Char.ofNat v
    rw [hfirst]

theorem isSequence_two (hlow : 0x7f < v) (hhigh : v ≤ 0x7ff) :
    IsSequence (UInt8.ofNat (v / 64 % 0x20 + 0xc0))
      [UInt8.ofNat (v % 0x40 + 0x80)] (Char.ofNat v) := by
  have hfirst := toNat_ofNat (n := v / 64 % 0x20 + 0xc0) (by omega)
  have hsecond := toNat_ofNat (n := v % 0x40 + 0x80) (by omega)
  generalize UInt8.ofNat (v / 64 % 0x20 + 0xc0) = first at hfirst
  generalize UInt8.ofNat (v % 0x40 + 0x80) = second at hsecond
  refine ⟨width?_of_toNat ?_, ⟨?_, by simp⟩, ?_⟩
  · exact .inr (.inl ⟨by omega, by omega, rfl⟩)
  · apply mayFollow_of_toNat <;> omega
  · change Char.ofNat (0x40 * (first.toNat % 0x20) + second.toNat % 0x40) = _
    congr 1
    omega

theorem isSequence_three (hlow : 0x7ff < v) (hhigh : v ≤ 0xffff)
    (hvalid : v < 0xd800 ∨ 0xdfff < v) :
    IsSequence (UInt8.ofNat (v / 4096 % 0x10 + 0xe0))
      [UInt8.ofNat (v / 64 % 0x40 + 0x80), UInt8.ofNat (v % 0x40 + 0x80)]
      (Char.ofNat v) := by
  have hfirst := toNat_ofNat (n := v / 4096 % 0x10 + 0xe0) (by omega)
  have hsecond := toNat_ofNat (n := v / 64 % 0x40 + 0x80) (by omega)
  have hthird := toNat_ofNat (n := v % 0x40 + 0x80) (by omega)
  generalize UInt8.ofNat (v / 4096 % 0x10 + 0xe0) = first at hfirst
  generalize UInt8.ofNat (v / 64 % 0x40 + 0x80) = second at hsecond
  generalize UInt8.ofNat (v % 0x40 + 0x80) = third at hthird
  have hmay : isContinuation third = true :=
    isContinuation_of_toNat (by omega) (by omega)
  refine ⟨width?_of_toNat ?_, ⟨?_, by simpa using hmay⟩, ?_⟩
  · exact .inr (.inr (.inl ⟨by omega, by omega, rfl⟩))
  · apply mayFollow_of_toNat <;> omega
  · change Char.ofNat (0x40 * (0x40 * (first.toNat % 0x10) +
      second.toNat % 0x40) + third.toNat % 0x40) = _
    congr 1
    omega

theorem isSequence_four (hlow : 0xffff < v) (hhigh : v < 0x110000) :
    IsSequence (UInt8.ofNat (v / 262144 % 0x08 + 0xf0))
      [UInt8.ofNat (v / 4096 % 0x40 + 0x80), UInt8.ofNat (v / 64 % 0x40 + 0x80),
        UInt8.ofNat (v % 0x40 + 0x80)] (Char.ofNat v) := by
  have hfirst := toNat_ofNat (n := v / 262144 % 0x08 + 0xf0) (by omega)
  have hsecond := toNat_ofNat (n := v / 4096 % 0x40 + 0x80) (by omega)
  have hthird := toNat_ofNat (n := v / 64 % 0x40 + 0x80) (by omega)
  have hfourth := toNat_ofNat (n := v % 0x40 + 0x80) (by omega)
  generalize UInt8.ofNat (v / 262144 % 0x08 + 0xf0) = first at hfirst
  generalize UInt8.ofNat (v / 4096 % 0x40 + 0x80) = second at hsecond
  generalize UInt8.ofNat (v / 64 % 0x40 + 0x80) = third at hthird
  generalize UInt8.ofNat (v % 0x40 + 0x80) = fourth at hfourth
  have hmay : isContinuation third = true ∧ isContinuation fourth = true :=
    ⟨isContinuation_of_toNat (by omega) (by omega),
      isContinuation_of_toNat (by omega) (by omega)⟩
  refine ⟨width?_of_toNat ?_, ⟨?_, by simpa using hmay⟩, ?_⟩
  · exact .inr (.inr (.inr ⟨by omega, by omega, rfl⟩))
  · apply mayFollow_of_toNat <;> omega
  · change Char.ofNat (0x40 * (0x40 * (0x40 * (first.toNat % 0x08) +
      second.toNat % 0x40) + third.toNat % 0x40) + fourth.toNat % 0x40) = _
    congr 1
    omega

theorem exists_sequence (c : Char) :
    ∃ first rest, String.utf8EncodeChar c = first :: rest ∧
      IsSequence first rest c := by
  have hvalid : c.val.toNat < 0xd800 ∨
      0xdfff < c.val.toNat ∧ c.val.toNat < 0x110000 := c.valid
  have hchar : Char.ofNat c.val.toNat = c := Char.ofNat_toNat c
  rw [String.utf8EncodeChar]
  generalize c.val.toNat = v at hvalid hchar
  rw [← hchar]
  by_cases hone : v ≤ 0x7f
  · rw [if_pos hone]
    exact ⟨_, _, rfl, isSequence_one hone⟩
  rw [if_neg hone]
  by_cases htwo : v ≤ 0x7ff
  · rw [if_pos htwo]
    exact ⟨_, _, rfl, isSequence_two (by omega) htwo⟩
  rw [if_neg htwo]
  by_cases hthree : v ≤ 0xffff
  · rw [if_pos hthree]
    exact ⟨_, _, rfl, isSequence_three (by omega) hthree (by omega)⟩
  · rw [if_neg hthree]
    exact ⟨_, _, rfl, isSequence_four (by omega) (by omega)⟩

/-! ## Blocks -/

theorem decodeFrom_split {cs : List Char} {block tail : List UInt8}
    (h : encode cs = block ++ tail) (place : Nat) :
    ∃ done left held, cs = done ++ left ∧
      decodeFrom place block = .ok (done, held) ∧
      encode left = held ++ tail ∧ (tail = [] → held = []) := by
  induction cs generalizing block place with
  | nil =>
      obtain ⟨rfl, rfl⟩ := List.append_eq_nil_iff.1 h.symm
      exact ⟨[], [], [], rfl, by rw [decodeFrom], rfl, fun _ ↦ rfl⟩
  | cons c cs ih =>
      obtain ⟨first, rest, hbytes, hsequence⟩ := exists_sequence c
      have hsplit : (first :: rest) ++ encode cs = block ++ tail := by
        rw [← hbytes]
        exact h
      -- Either the block holds all bytes of the first character or it cuts them.
      by_cases hwhole : rest.length < block.length
      · obtain ⟨more, rfl⟩ : first :: rest <+: block :=
          List.prefix_of_prefix_length_le (hsplit ▸ List.prefix_append _ _)
            (List.prefix_append _ tail) hwhole
        rw [List.append_assoc, List.append_right_inj] at hsplit
        obtain ⟨done, left, held, rfl, hdecode, hleft, hheld⟩ :=
          ih hsplit (place + (rest.length + 1))
        refine ⟨c :: done, left, held, rfl, ?_, hleft, hheld⟩
        rw [decodeFrom_sequence hsequence, hdecode]
        rfl
      · have hcut : decodeFrom place block = .ok ([], block) := by
          cases block with
          | nil => rw [decodeFrom]
          | cons byte part =>
              rw [List.length_cons] at hwhole
              rw [List.cons_append, List.cons_append, List.cons.injEq] at hsplit
              obtain ⟨rfl, hsplit⟩ := hsplit
              have hpart : rest.take part.length = part := by
                have htake := congrArg (List.take part.length) hsplit
                rwa [List.take_left, List.take_append_of_le_length (by omega)]
                  at htake
              rw [← hpart]
              exact decodeFrom_cut hsequence (by omega) place
        refine ⟨[], c :: cs, block, rfl, hcut, h, ?_⟩
        rintro rfl
        have hlength := congrArg List.length hsplit
        rw [List.append_nil, List.length_append, List.length_cons] at hlength
        omega

theorem eq_nil_of_encode {cs : List Char} (h : encode cs = []) : cs = [] := by
  cases cs with
  | nil => rfl
  | cons c cs =>
      exact absurd (List.append_eq_nil_iff.1 h).1 String.utf8EncodeChar_ne_nil

theorem decodeBlocks_encode {cs : List Char} {held bytes : List UInt8}
    (h : encode cs = held ++ bytes) (hheld : bytes = [] → held = []) :
    decodeBlocks held bytes = .ok cs := by
  fun_induction decodeBlocks held bytes generalizing cs with
  | case1 held hnone =>
      rw [hheld rfl] at h
      rw [eq_nil_of_encode h]
  | case2 held e hsome =>
      rw [hheld rfl] at hsome
      cases hsome
  | case3 held byte rest block =>
      rename_i ih
      have hblocks : encode cs = (held ++ (byte :: rest).take blockSize) ++
          (byte :: rest).drop blockSize := by
        rw [List.append_assoc, List.take_append_drop]
        exact h
      obtain ⟨done, left, held', rfl, hdecode, hleft, hheld'⟩ :=
        decodeFrom_split hblocks 0
      rw [hdecode]
      change (decodeBlocks held' ((byte :: rest).drop blockSize) >>= fun more ↦
        return done ++ more) = _
      rw [ih held' hleft hheld']
      rfl

theorem decode_encode (cs : List Char) : decode (encode cs) = .ok cs :=
  decodeBlocks_encode rfl fun _ ↦ rfl

end Utf8

/-! ## Lines -/

theorem fileLines_cons {line : List Char} (hfeed : '\n' ∉ line)
    (hreturn : '\r' ∉ line) (cs : List Char) :
    fileLines (line ++ '\n' :: cs) = line :: fileLines cs := by
  induction line with
  | nil => rfl
  | cons c line ih =>
      rw [List.mem_cons, not_or] at hfeed hreturn
      have hc : ¬ (c = '\n' ∨ c = '\r') := by
        rintro (rfl | rfl)
        · exact hfeed.1 rfl
        · exact hreturn.1 rfl
      rw [List.cons_append, fileLines.eq_3 _ _ fun _ h _ ↦ hreturn.1 h.symm,
        if_neg hc, ih hfeed.2 hreturn.2]
      rfl

/-- Lines with an end after each of them. -/
def ended (lines : List (List Char)) : List Char :=
  lines.flatMap fun line ↦ line ++ ['\n']

theorem fileLines_ended {lines : List (List Char)}
    (h : ∀ line ∈ lines, '\n' ∉ line ∧ '\r' ∉ line) :
    fileLines (ended lines) = lines := by
  induction lines with
  | nil => rfl
  | cons line lines ih =>
      obtain ⟨hfeed, hreturn⟩ := h line List.mem_cons_self
      rw [ended, List.flatMap_cons, List.append_assoc, List.singleton_append,
        fileLines_cons hfeed hreturn]
      congr 1
      exact ih fun line h' ↦ h line (List.mem_cons_of_mem _ h')

/-- The bytes of a file of lines. -/
def fileBytes (lines : List String) : List UInt8 :=
  Utf8.encode (ended (lines.map String.toList))

end Nameless.Text
