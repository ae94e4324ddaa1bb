import DebugGuard.Proofs.Text.Offset
import DebugGuard.Script.Bytes
import Mathlib

/-!
# Characters at a byte offset

`Stands source pos cs` says that the characters `cs` make up the text from the byte offset `pos` on.
Then the bytes, the slices and the searches from there on are told by the characters.  That rests on
the encoding: a character of one byte has its own number as that byte (`utf8EncodeChar_of_isAscii`),
and a longer one has no byte that could be taken for such a character (`le_of_mem_utf8EncodeChar`).
-/

namespace DebugGuard.Text

variable {source : String} {cs ds ps : List Char} {c d : Char} {p : Char → Bool} {b : UInt8}
  {pos n : Nat}

/-! ### The bytes of a character -/

/-- The bytes of several characters. -/
def utf8 (cs : List Char) : List UInt8 :=
  cs.flatMap String.utf8EncodeChar

@[simp] theorem utf8_nil : utf8 [] = [] := rfl

@[simp] theorem utf8_cons : utf8 (c :: cs) = String.utf8EncodeChar c ++ utf8 cs := rfl

@[simp] theorem utf8_append : utf8 (cs ++ ds) = utf8 cs ++ utf8 ds :=
  List.flatMap_append

@[simp] theorem length_utf8 (cs : List Char) : (utf8 cs).length = byteSize cs := by
  induction cs with
  | nil => rfl
  | cons c cs ih =>
    rw [utf8_cons, List.length_append, ih, String.length_utf8EncodeChar, byteSize_cons]

theorem bytes_eq (source : String) : bytes source = utf8 source.toList := by
  rw [bytes, String.toUTF8, ← String.utf8Encode_toList, List.utf8Encode,
    List.toList_data_toByteArray, utf8]

/-- A character of one byte. -/
def IsAscii (c : Char) : Prop :=
  c.toNat < 128

instance : DecidablePred IsAscii := fun c => inferInstanceAs (Decidable (c.toNat < 128))

theorem utf8EncodeChar_of_isAscii (h : IsAscii c) :
    String.utf8EncodeChar c = [UInt8.ofNat c.toNat] := by
  have hle : c.val.toNat ≤ 127 := Nat.le_of_lt_succ h
  simp only [String.utf8EncodeChar]
  rw [if_pos hle]
  rfl

theorem le_of_mem_utf8EncodeChar (h : ¬IsAscii c) (hb : b ∈ String.utf8EncodeChar c) :
    128 ≤ b := by
  have hlt : 127 < c.val.toNat := Nat.lt_of_succ_le (Nat.le_of_not_lt h)
  simp only [String.utf8EncodeChar] at hb
  rw [UInt8.le_iff_toNat_le]
  split_ifs at hb
  · omega
  all_goals
    simp only [List.mem_cons, List.not_mem_nil, or_false, ← UInt8.toNat_inj, UInt8.toNat_ofNat',
      UInt8.reduceToNat] at hb ⊢
    omega

theorem utf8Size_of_isAscii (h : IsAscii c) : c.utf8Size = 1 := by
  rw [← String.length_utf8EncodeChar, utf8EncodeChar_of_isAscii h, List.length_singleton]

theorem byteSize_of_isAscii (h : ∀ c ∈ cs, IsAscii c) : byteSize cs = cs.length := by
  induction cs with
  | nil => rfl
  | cons c cs ih =>
    rw [List.forall_mem_cons] at h
    rw [byteSize_cons, utf8Size_of_isAscii h.1, ih h.2, List.length_cons, Nat.add_comm]

theorem ofNat_inj_of_isAscii (hc : IsAscii c) (hd : IsAscii d) :
    UInt8.ofNat c.toNat = UInt8.ofNat d.toNat ↔ c = d := by
  refine ⟨fun h => ?_, fun h => h ▸ rfl⟩
  have hlt (e : Char) (he : IsAscii e) : e.toNat % 256 = e.toNat :=
    Nat.mod_eq_of_lt (Nat.lt_trans he (by decide))
  rw [← UInt8.toNat_inj, UInt8.toNat_ofNat', UInt8.toNat_ofNat', hlt c hc, hlt d hd] at h
  exact Char.ext (UInt32.toNat_inj.1 h)

theorem isByteOf_of_isAscii (h : IsAscii c) : isByteOf p (UInt8.ofNat c.toNat) = p c := by
  have hmod : (UInt8.ofNat c.toNat).toNat = c.toNat :=
    (UInt8.toNat_ofNat' ..).trans (Nat.mod_eq_of_lt (Nat.lt_trans h (by decide)))
  have hlt : UInt8.ofNat c.toNat < 128 := by
    rw [UInt8.lt_iff_toNat_lt, hmod]
    exact h
  rw [isByteOf, decide_eq_true hlt, Bool.true_and, hmod, Char.ofNat_toNat]

theorem isByteOf_of_le (h : 128 ≤ b) : isByteOf p b = false := by
  rw [isByteOf, decide_eq_false (UInt8.not_lt.2 h), Bool.false_and]

/-- The first byte of a longer character. -/
theorem exists_cons_utf8EncodeChar (h : ¬IsAscii c) :
    ∃ b bs, String.utf8EncodeChar c = b :: bs ∧ 128 ≤ b := by
  cases hc : String.utf8EncodeChar c with
  | nil =>
    have := c.utf8Size_pos
    rw [← String.length_utf8EncodeChar, hc] at this
    cases this
  | cons b bs => exact ⟨b, bs, rfl, le_of_mem_utf8EncodeChar h (by simp [hc])⟩

/-- A property of characters is seen by a byte if it is one of characters of one byte alone. -/
theorem any_head?_utf8 (hp : ∀ c, p c = true → IsAscii c) :
    (utf8 cs).head?.any (isByteOf p) = cs.head?.any p := by
  cases cs with
  | nil => rfl
  | cons c cs =>
    by_cases hc : IsAscii c
    · rw [utf8_cons, utf8EncodeChar_of_isAscii hc]
      exact isByteOf_of_isAscii hc
    · obtain ⟨b, bs, heq, hb⟩ := exists_cons_utf8EncodeChar hc
      rw [utf8_cons, heq]
      exact (isByteOf_of_le hb).trans (Bool.eq_false_iff.2 fun h => hc (hp c h)).symm

theorem takeWhile_utf8 (hp : ∀ c, p c = true → IsAscii c) :
    (utf8 cs).takeWhile (isByteOf p) = utf8 (cs.takeWhile p) := by
  induction cs with
  | nil => rfl
  | cons c cs ih =>
    by_cases hc : IsAscii c
    · rw [utf8_cons, utf8EncodeChar_of_isAscii hc, List.singleton_append, List.takeWhile_cons,
        List.takeWhile_cons, isByteOf_of_isAscii hc, ih]
      split
      · rw [utf8_cons, utf8EncodeChar_of_isAscii hc, List.singleton_append]
      · rfl
    · obtain ⟨b, bs, heq, hb⟩ := exists_cons_utf8EncodeChar hc
      rw [utf8_cons, heq, List.cons_append, List.takeWhile_cons, isByteOf_of_le hb,
        List.takeWhile_cons, if_neg Bool.false_ne_true, if_neg fun h => hc (hp c h), utf8_nil]

/-! ### Searches -/

theorem prefix_utf8_iff (hps : ∀ c ∈ ps, IsAscii c) : utf8 ps <+: utf8 cs ↔ ps <+: cs := by
  induction ps generalizing cs with
  | nil => simp
  | cons d ps ih =>
    rw [List.forall_mem_cons] at hps
    rw [utf8_cons, utf8EncodeChar_of_isAscii hps.1, List.singleton_append]
    cases cs with
    | nil => simp
    | cons c cs =>
      by_cases hc : IsAscii c
      · rw [utf8_cons, utf8EncodeChar_of_isAscii hc, List.singleton_append, List.cons_prefix_cons,
          List.cons_prefix_cons, ofNat_inj_of_isAscii hps.1 hc, ih hps.2]
      · obtain ⟨b, bs, heq, hb⟩ := exists_cons_utf8EncodeChar hc
        rw [utf8_cons, heq, List.cons_append, List.cons_prefix_cons, List.cons_prefix_cons]
        refine iff_of_false (fun h => ?_) (fun h => hc (h.1 ▸ hps.1))
        have := isByteOf_of_isAscii (p := fun _ => true) hps.1
        rw [h.1, isByteOf_of_le hb] at this
        cases this

/-- What cannot start the pattern is passed over. -/
theorem findBytes?_append {pattern xs ys : List UInt8} (hne : pattern ≠ [])
    (h : ∀ b ∈ xs, pattern.head? ≠ some b) :
    findBytes? pattern (xs ++ ys) = (findBytes? pattern ys).map (· + xs.length) := by
  obtain ⟨a, pattern, rfl⟩ := List.exists_cons_of_ne_nil hne
  induction xs with
  | nil => simp
  | cons x xs ih =>
    rw [List.forall_mem_cons] at h
    have hx : (a :: pattern).isPrefixOf (x :: (xs ++ ys)) = false := by
      have : a ≠ x := fun hax => h.1 (congrArg some hax)
      simp [List.isPrefixOf, this]
    rw [List.cons_append, findBytes?, hx, if_neg Bool.false_ne_true, ih h.2, Option.map_map]
    rfl

theorem findBytes?_cons (c : Char) (cs : List Char) (hne : ps ≠ []) (hps : ∀ c ∈ ps, IsAscii c) :
    findBytes? (utf8 ps) (utf8 (c :: cs)) =
      if ps <+: c :: cs then some 0 else (findBytes? (utf8 ps) (utf8 cs)).map (· + c.utf8Size) := by
  have hprefix : utf8 ps <+: utf8 (c :: cs) ↔ ps <+: c :: cs := prefix_utf8_iff hps
  obtain ⟨d, ps, rfl⟩ := List.exists_cons_of_ne_nil hne
  have hd : IsAscii d := hps d (by simp)
  by_cases hc : IsAscii c
  · rw [utf8_cons (c := c), utf8EncodeChar_of_isAscii hc, List.singleton_append] at hprefix ⊢
    rw [findBytes?, utf8Size_of_isAscii hc]
    refine if_congr ?_ rfl rfl
    rw [List.isPrefixOf_iff_prefix, hprefix]
  · have hne : ¬d :: ps <+: c :: cs := fun h => by
      rw [(List.cons_prefix_cons.1 h).1] at hd
      exact hc hd
    rw [if_neg hne, utf8_cons (c := c),
      findBytes?_append (by simp [utf8EncodeChar_of_isAscii hd]), String.length_utf8EncodeChar]
    intro b hb heq
    rw [utf8_cons, utf8EncodeChar_of_isAscii hd, List.singleton_append, List.head?_cons,
      Option.some.injEq] at heq
    have := isByteOf_of_isAscii (p := fun _ => true) hd
    rw [heq, isByteOf_of_le (le_of_mem_utf8EncodeChar hc hb)] at this
    cases this

theorem findBytes?_char (hd : IsAscii d) : findBytes? (utf8 [d]) (utf8 cs) =
    if d ∈ cs then some (byteSize (cs.takeWhile (· != d))) else none := by
  induction cs with
  | nil => rfl
  | cons c cs ih =>
    rw [findBytes?_cons _ _ (by simp) (by simpa using hd), ih]
    by_cases hc : c = d
    · subst hc
      simp [List.cons_prefix_cons]
    · rw [if_neg (by simp [List.cons_prefix_cons, Ne.symm hc])]
      by_cases hm : d ∈ cs <;> simp [hm, hc, Ne.symm hc, Nat.add_comm]

theorem offsetOf?_eq : offsetOf? p cs =
    if cs.any p then some (byteSize (cs.takeWhile (!p ·))) else none := by
  induction cs with
  | nil => rfl
  | cons c cs ih =>
    rw [offsetOf?, ih]
    cases hc : p c with
    | true => simp [hc]
    | false => cases hm : cs.any p <;> simp [hc, hm]

/-! ### Characters at an offset -/

/-- The characters make up the text from the byte offset on. -/
def Stands (source : String) (pos : Nat) (cs : List Char) : Prop :=
  ∃ before, source.toList = before ++ cs ∧ byteSize before = pos

theorem stands_zero (source : String) : Stands source 0 source.toList :=
  ⟨[], rfl, rfl⟩

theorem slice?_of_split {before word rest : List Char}
    (h : source.toList = before ++ word ++ rest) :
    slice? source (byteSize before) (byteSize before + byteSize word) = some (.ofList word) := by
  obtain ⟨hstart, hstop, hword⟩ := slice_of_split h
  rw [slice?, if_pos ⟨Nat.le_add_right .., String.Pos.Raw.isValid_eq_true_iff.2 hstart,
    String.Pos.Raw.isValid_eq_true_iff.2 hstop⟩, hword]

namespace Stands

theorem size_eq (h : Stands source pos cs) : pos + byteSize cs = source.utf8ByteSize := by
  obtain ⟨before, hsplit, rfl⟩ := h
  rw [utf8ByteSize_eq, hsplit, byteSize_append]

theorem append (h : Stands source pos (cs ++ ds)) : Stands source (pos + byteSize cs) ds := by
  obtain ⟨before, hsplit, rfl⟩ := h
  exact ⟨before ++ cs, by rw [hsplit, List.append_assoc], byteSize_append ..⟩

theorem cons (h : Stands source pos (c :: cs)) : Stands source (pos + c.utf8Size) cs :=
  append (show Stands source pos ([c] ++ cs) from h)

theorem drop (h : Stands source pos cs) (n : Nat) :
    Stands source (pos + byteSize (cs.take n)) (cs.drop n) := by
  refine append ?_
  rwa [List.take_append_drop]

theorem drop_bytes (h : Stands source pos cs) : (bytes source).drop pos = utf8 cs := by
  obtain ⟨before, hsplit, rfl⟩ := h
  rw [bytes_eq, hsplit, utf8_append, ← length_utf8, List.drop_left]

theorem slice?_eq (h : Stands source pos (cs ++ ds)) :
    slice? source pos (pos + byteSize cs) = some (.ofList cs) := by
  obtain ⟨before, hsplit, rfl⟩ := h
  exact slice?_of_split (hsplit.trans (List.append_assoc ..).symm)

/-- A slice that does not fail has whole characters. -/
theorem of_slice? {text : String} (h : Stands source pos cs)
    (ht : slice? source pos (pos + n) = some text) :
    ∃ rest, cs = text.toList ++ rest ∧ byteSize text.toList = n := by
  have hvalid : String.Pos.Raw.IsValid source ⟨pos + n⟩ := by
    unfold slice? at ht
    split at ht
    next hcut => exact String.Pos.Raw.isValid_eq_true_iff.1 hcut.2.2
    next => cases ht
  obtain ⟨before, hsplit, rfl⟩ := h
  obtain ⟨before', rest, hsplit', hsize⟩ := isValid_iff_split.1 hvalid
  obtain ⟨word, rfl⟩ : ∃ word, before' = before ++ word := by
    rcases List.append_eq_append_iff.1 (hsplit.symm.trans hsplit') with
      ⟨word, rfl, -⟩ | ⟨more, rfl, -⟩
    · exact ⟨word, rfl⟩
    · have hmore : more = [] := by
        by_contra hne
        have := byteSize_pos hne
        rw [byteSize_append] at hsize
        omega
      exact ⟨[], by simp [hmore]⟩
  rw [byteSize_append, Nat.add_left_cancel_iff] at hsize
  subst hsize
  rw [slice?_of_split hsplit', Option.some.injEq] at ht
  subst ht
  refine ⟨rest, ?_, by rw [String.toList_ofList]⟩
  rw [hsplit, List.append_assoc, List.append_cancel_left_eq] at hsplit'
  rw [hsplit', String.toList_ofList]

end Stands

end DebugGuard.Text
