import DebugGuard.Text.Offset
import Mathlib

/-!
# Byte offsets between characters

A text can be cut at a byte offset if the offset lies between two characters, at its start or at its
end (`isValid_iff_split`).  Then what fits in front of the offset is what stands there
(`fitting_byteSize`); for any other offset, it ends where the character around the offset starts, or
the text ends (`fitting_append`, `exists_fitting`).
-/

namespace DebugGuard.Text

variable {source : String} {before word rest : List Char} {n p : Nat}

theorem byteSize_pos {cs : List Char} (h : cs ≠ []) : 0 < byteSize cs := by
  obtain ⟨c, cs, rfl⟩ := List.exists_cons_of_ne_nil h
  have := c.utf8Size_pos
  rw [byteSize_cons]
  omega

theorem utf8ByteSize_ofList (cs : List Char) : (String.ofList cs).utf8ByteSize = byteSize cs := by
  rw [String.utf8ByteSize_ofList]
  induction cs with
  | nil => rfl
  | cons c cs ih => rw [String.utf8Len_cons, ih, byteSize_cons, Nat.add_comm]

theorem utf8ByteSize_eq (source : String) : source.utf8ByteSize = byteSize source.toList := by
  rw [← utf8ByteSize_ofList, String.ofList_toList]

/-! ### Slices -/

/-- The bytes from `start` to `stop` are the whole characters of `word`. -/
structure Slice (source : String) (start stop : Nat) (word : String) : Prop where
  start_valid : String.Pos.Raw.IsValid source ⟨start⟩
  stop_valid : String.Pos.Raw.IsValid source ⟨stop⟩
  extract_eq : String.Pos.Raw.extract source ⟨start⟩ ⟨stop⟩ = word

theorem isValid_of_split (h : source.toList = before ++ rest) :
    String.Pos.Raw.IsValid source ⟨byteSize before⟩ := by
  refine String.Pos.Raw.isValid_iff_exists_append.2 ⟨.ofList before, .ofList rest, ?_, ?_⟩
  · rw [← String.ofList_append, ← h, String.ofList_toList]
  · rw [String.rawEndPos, utf8ByteSize_ofList]

theorem isValid_iff_split : String.Pos.Raw.IsValid source ⟨p⟩ ↔
    ∃ before rest, source.toList = before ++ rest ∧ byteSize before = p := by
  constructor
  · intro h
    obtain ⟨s, t, rfl, hp⟩ := String.Pos.Raw.isValid_iff_exists_append.1 h
    refine ⟨s.toList, t.toList, String.toList_append, ?_⟩
    rw [← utf8ByteSize_eq]
    exact (congrArg String.Pos.Raw.byteIdx hp).symm
  · rintro ⟨before, rest, hsplit, rfl⟩
    exact isValid_of_split hsplit

theorem slice_of_split (h : source.toList = before ++ word ++ rest) :
    Slice source (byteSize before) (byteSize before + byteSize word) (.ofList word) := by
  refine ⟨isValid_of_split (h.trans (List.append_assoc ..)), ?_, ?_⟩
  · rw [← byteSize_append]
    exact isValid_of_split h
  · have := String.extract_of_valid before word rest
    rwa [← h, String.ofList_toList, ← String.utf8ByteSize_ofList, ← String.utf8ByteSize_ofList,
      utf8ByteSize_ofList, utf8ByteSize_ofList] at this

/-- Of two cuts through one text, the later one has more in front of it. -/
theorem exists_append_of_lt {before' rest' : List Char} (h : before ++ rest = before' ++ rest')
    (hlt : byteSize before < byteSize before') : ∃ more, more ≠ [] ∧ before' = before ++ more := by
  rcases List.append_eq_append_iff.1 h with ⟨more, rfl, -⟩ | ⟨more, rfl, -⟩
  · refine ⟨more, ?_, rfl⟩
    rintro rfl
    simp at hlt
  · rw [byteSize_append] at hlt
    omega

/-! ### What fits in front of an offset -/

/-- What fits ends in front of the first character that does not. -/
theorem fitting_append (hfit : byteSize before ≤ n)
    (hnext : ∀ c ∈ rest.head?, n < byteSize before + c.utf8Size) :
    fitting n (before ++ rest) = before := by
  induction before generalizing n with
  | nil =>
    cases rest with
    | nil => rfl
    | cons c rest =>
      have hc := hnext c rfl
      rw [byteSize_nil, Nat.zero_add] at hc
      rw [List.nil_append, fitting, if_neg (Nat.not_le.2 hc)]
  | cons d before ih =>
    rw [byteSize_cons] at hfit hnext
    rw [List.cons_append, fitting, if_pos (by omega), ih (by omega)]
    intro c hc
    have := hnext c hc
    omega

theorem exists_fitting (n : Nat) (cs : List Char) : ∃ rest, cs = fitting n cs ++ rest ∧
    byteSize (fitting n cs) ≤ n ∧ ∀ c ∈ rest.head?, n < byteSize (fitting n cs) + c.utf8Size := by
  induction cs generalizing n with
  | nil => exact ⟨[], rfl, Nat.zero_le n, by simp⟩
  | cons d cs ih =>
    rw [fitting]
    split_ifs with hd
    · obtain ⟨rest, hcs, hfit, hnext⟩ := ih (n - d.utf8Size)
      refine ⟨rest, congrArg (d :: ·) hcs, ?_, fun c hc => ?_⟩
      · rw [byteSize_cons]
        omega
      · have := hnext c hc
        rw [byteSize_cons]
        omega
    · refine ⟨d :: cs, rfl, Nat.zero_le n, fun c hc => ?_⟩
      cases Option.mem_some_iff.1 hc
      rw [byteSize_nil]
      omega

theorem fitting_byteSize (before rest : List Char) :
    fitting (byteSize before) (before ++ rest) = before :=
  fitting_append le_rfl fun c _ => Nat.lt_add_of_pos_right c.utf8Size_pos

@[simp] theorem fitting_zero (cs : List Char) : fitting 0 cs = [] :=
  fitting_byteSize [] cs

end DebugGuard.Text
