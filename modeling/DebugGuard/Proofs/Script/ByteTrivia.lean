import DebugGuard.Proofs.Script.Scanned
import DebugGuard.Proofs.Text.Bytes

/-!
# Steps over bytes and trivia

`Runs x r` says that steps which might fail do not, and what they give or report.  The steps of the
scanner on bytes are compared with the scanner on characters that way: where the characters `cs`
stand at a byte offset, reading the byte there and looking at the first of `cs` is the same.

Main statement: `ByteScan.trivia_runs`.
-/

namespace DebugGuard

open Text

/-! ### Steps -/

section

variable {α β γ δ : Type} {x : Steps α} {r : Except SourceError α} {k : α → Steps β}

/-- The steps do not fail, and give or report `r`. -/
def Runs (x : Steps α) (r : Except SourceError α) : Prop :=
  x.run = some r

theorem Runs.pure (a : α) : Runs (pure a) (.ok a) := rfl

theorem Runs.throw (e : SourceError) : Runs (throw e : Steps α) (.error e) := rfl

theorem Runs.bind {g : α → Except SourceError β} (hx : Runs x r)
    (hk : ∀ a, r = .ok a → Runs (k a) (g a)) : Runs (x >>= k) (r >>= g) := by
  unfold Runs at hx ⊢
  rw [ExceptT.run_bind, hx]
  cases r with
  | error e => rfl
  | ok a => exact hk a rfl

theorem Runs.bind_ok {a : α} {s : Except SourceError β} (hx : Runs x (.ok a)) (hk : Runs (k a) s) :
    Runs (x >>= k) s :=
  hx.bind (g := fun _ => s) fun b h => by
    obtain rfl := Except.ok.inj h
    exact hk

theorem Runs.bind_error {e : SourceError} (hx : Runs x (.error e)) :
    Runs (x >>= k) (.error e) :=
  hx.bind (g := fun _ => .error e) fun _ h => by cases h

/-- What comes first gives its value in another form. -/
theorem Runs.bind_map {y : Except SourceError γ} {f : γ → α} {g : γ → Except SourceError β}
    (hx : Runs x (y.map f)) (hk : ∀ c, y = .ok c → Runs (k (f c)) (g c)) :
    Runs (x >>= k) (y >>= g) := by
  cases y with
  | error e => exact hx.bind_error
  | ok c => exact hx.bind_ok (hk c rfl)

theorem Runs.map {g : α → β} (hx : Runs x r) (hk : ∀ a, Runs (k a) (.ok (g a))) :
    Runs (x >>= k) (r.map g) := by
  cases r with
  | error e => exact hx.bind_error
  | ok a => exact hx.bind_ok (hk a)

theorem Runs.map_map {y : Except SourceError γ} {f : γ → α} {g : γ → β} (hx : Runs x (y.map f))
    (hk : ∀ c, Runs (k (f c)) (.ok (g c))) : Runs (x >>= k) (y.map g) := by
  cases y with
  | error e => exact hx.bind_error
  | ok c => exact hx.bind_ok (hk c)

/-- A part that does not fail goes first. -/
theorem Runs.lift {o : Option α} {a : α} {s : Except SourceError β} (ho : o = some a)
    (hk : Runs (k a) s) : Runs (liftM o >>= k) s := by
  subst ho
  exact Runs.bind_ok (x := liftM (some a)) rfl hk

/-- A fault of what starts at an offset. -/
def located (start : Nat) (y : Except Fault γ) : Except SourceError γ :=
  y.mapError (⟨·, start⟩)

theorem located_eq_ok {start : Nat} {y : Except Fault γ} {c : γ} :
    located start y = .ok c ↔ y = .ok c := by
  cases y <;> simp [located, Except.mapError]

theorem located_map_map {start : Nat} (y : Except Fault γ) (g : γ → δ) (f : δ → β) :
    (located start (y.map g)).map f = (located start y).map fun c => f (g c) := by
  cases y <;> rfl

theorem located_bind_map {start : Nat} (y : Except Fault γ) (g : γ → Except Fault δ) (f : δ → β) :
    (located start (y >>= g)).map f = located start y >>= fun c => (located start (g c)).map f := by
  cases y <;> rfl

end

namespace ByteScan

variable {source : String} {cs r : List Char} {c d : Char} {p : Char → Bool} {pos next n : Nat}
  {broken : Bool}

/-! ### Bytes told by characters -/

theorem byte?_eq (h : Stands source pos cs) : byte? source pos = (utf8 cs).head? := by
  rw [byte?, ← List.head?_drop, h.drop_bytes]

theorem isAt_eq (hp : ∀ c, p c = true → IsAscii c) (h : Stands source pos cs) :
    isAt source p pos = cs.head?.any p := by
  rw [isAt, byte?_eq h, any_head?_utf8 hp]

theorem isAt_char (hd : IsAscii d) (h : Stands source pos cs) :
    isAt source (· == d) pos = cs.head?.any (· == d) :=
  isAt_eq (fun _ hc => beq_iff_eq.1 hc ▸ hd) h

theorem isNone_byte? (h : Stands source pos cs) : (byte? source pos).isNone = cs.isEmpty := by
  rw [byte?_eq h]
  cases cs with
  | nil => rfl
  | cons c cs =>
    have hc : String.utf8EncodeChar c ≠ [] := fun hc => by
      have := c.utf8Size_pos
      rw [← String.length_utf8EncodeChar, hc] at this
      cases this
    obtain ⟨b, bs, heq⟩ := List.exists_cons_of_ne_nil hc
    rw [utf8_cons, heq]
    rfl

theorem bytesFrom?_eq (h : Stands source pos cs) : bytesFrom? source pos = some (utf8 cs) := by
  have hle : pos ≤ (bytes source).length := by
    rw [bytes_eq, length_utf8, ← utf8ByteSize_eq, ← h.size_eq]
    exact Nat.le_add_right ..
  rw [bytesFrom?, if_pos hle, h.drop_bytes]

theorem textFrom?_eq (h : Stands source pos cs) : textFrom? source pos = some (.ofList cs) := by
  rw [textFrom?, ← h.size_eq]
  have h : Stands source pos (cs ++ []) := by rwa [List.append_nil]
  exact h.slice?_eq

theorem skip_eq (hp : ∀ c, p c = true → IsAscii c) (h : Stands source pos cs) :
    skip source p pos = pos + (cs.takeWhile p).length := by
  rw [skip, h.drop_bytes, takeWhile_utf8 hp, length_utf8,
    byteSize_of_isAscii fun c hc => hp c (List.mem_takeWhile_imp hc)]

/-- A reader that leaves characters standing has not passed the end. -/
theorem getsAhead_of_stands (hlt : pos < next) (h : Stands source next cs) :
    GetsAhead source pos next :=
  ⟨hlt, h.size_eq ▸ Nat.le_add_right ..⟩

/-! ### Trivia -/

theorem bytes_lineFeed : bytes "\n" = utf8 ['\n'] :=
  bytes_eq _

theorem bytes_commentEnd : bytes "*/" = utf8 ['*', '/'] :=
  bytes_eq _

theorem findBytes?_commentEnd (cs : List Char) :
    findBytes? (utf8 ['*', '/']) (utf8 cs) = (Scan.commentBody? cs).map byteSize := by
  have hascii : ∀ c ∈ ['*', '/'], IsAscii c := by
    rw [List.forall_mem_cons, List.forall_mem_singleton]
    decide
  have hcons (c : Char) (cs : List Char) := findBytes?_cons c cs (by decide) hascii
  fun_induction Scan.commentBody? cs with
  | case1 => rfl
  | case2 rest =>
    rw [hcons, if_pos ⟨rest, rfl⟩]
    rfl
  | case3 c cs hne ih =>
    have hprefix : ¬['*', '/'] <+: c :: cs := by
      rintro ⟨tail, heq⟩
      obtain ⟨rfl, rfl⟩ := List.cons.inj heq
      exact hne tail rfl rfl
    rw [hcons, if_neg hprefix, ih, Option.map_map, Option.map_map]
    exact congrArg (Option.map · _) (funext fun body => Nat.add_comm ..)

theorem isAscii_of_space (c : Char) (h : (c == ' ' || c == '\t' || c == '\r') = true) :
    IsAscii c := by
  simp only [Bool.or_eq_true, beq_iff_eq] at h
  rcases h with (rfl | rfl) | rfl <;> decide

theorem triviaTurn_nil (h : Stands source pos []) : Runs (triviaTurn source pos) (.ok none) := by
  unfold triviaTurn
  rw [isAt_char (by decide) h, isAt_eq isAscii_of_space h, isAt_char (d := '/') (by decide) h,
    isNone_byte? h]
  exact Runs.pure none

theorem byteSize_slashes (cs : List Char) : byteSize ('/' :: '/' :: cs) = 2 + byteSize cs :=
  (Nat.add_assoc 1 1 _).symm

/-- A comment to the end of the line. -/
theorem triviaTurn_line (h : Stands source pos ('/' :: '/' :: r)) :
    Runs (triviaTurn source pos)
      (.ok (some (pos + 2 + byteSize (r.takeWhile (· != '\n')), false))) := by
  have hnext : Stands source (pos + 1) ('/' :: r) := h.cons
  unfold triviaTurn
  rw [isAt_char (by decide) h, isAt_eq isAscii_of_space h, isAt_char (d := '/') (by decide) h,
    isAt_char (d := '/') (by decide) hnext]
  refine Runs.lift (bytesFrom?_eq h) ?_
  rw [bytes_lineFeed, findBytes?_char (by decide)]
  by_cases hm : '\n' ∈ r
  · have hline : byteSize (('/' :: '/' :: r).takeWhile (· != '\n')) =
        2 + byteSize (r.takeWhile (· != '\n')) :=
      byteSize_slashes _
    rw [if_pos (by simpa using hm), hline, Nat.add_assoc pos]
    exact Runs.pure _
  · -- without a line feed the comment ends with the text
    have hline : r.takeWhile (· != '\n') = r :=
      List.takeWhile_eq_self_iff.2 fun c hc =>
        bne_iff_ne.2 fun hc' : c = '\n' => hm (hc' ▸ hc)
    have hsize : source.utf8ByteSize = pos + 2 + byteSize r := by
      rw [← h.size_eq, byteSize_slashes, Nat.add_assoc]
    rw [if_neg (by simpa using hm), hline, ← hsize]
    exact Runs.pure _

/-- A block comment, up to the first end mark; without one it is refused. -/
theorem triviaTurn_block (h : Stands source pos ('/' :: '*' :: r)) :
    Runs (triviaTurn source pos)
      (match Scan.commentBody? r with
      | some body => .ok (some (pos + 4 + byteSize body, body.contains '\n'))
      | none => .error ⟨.openComment, pos⟩) := by
  have hnext : Stands source (pos + 1) ('*' :: r) := h.cons
  have hrest : Stands source (pos + 2) r := hnext.cons
  unfold triviaTurn
  rw [isAt_char (by decide) h, isAt_eq isAscii_of_space h, isAt_char (d := '/') (by decide) h,
    isAt_char (d := '/') (by decide) hnext, isAt_char (d := '*') (by decide) hnext]
  refine Runs.lift (bytesFrom?_eq hrest) ?_
  rw [bytes_commentEnd, findBytes?_commentEnd, bytes_lineFeed]
  cases hbody : Scan.commentBody? r with
  | none => exact Runs.throw _
  | some body =>
    obtain ⟨rest, rfl, -⟩ := Scan.commentBody?_eq_some hbody
    have htake : (utf8 (body ++ '*' :: '/' :: rest)).take (byteSize body) = utf8 body := by
      rw [utf8_append, ← length_utf8, List.take_left]
    have hbreak : (findBytes? (utf8 ['\n']) (utf8 body)).isSome = body.contains '\n' := by
      rw [findBytes?_char (by decide)]
      by_cases hm : '\n' ∈ body <;> simp [hm]
    dsimp only [Option.map_some]
    rw [htake, hbreak, Nat.add_right_comm, Nat.add_assoc pos 2 2]
    exact Runs.pure _

/-- The characters that blanks and comments start with are told by the byte in front; all others are
asked whether they are blanks. -/
theorem triviaTurn_cons (h : Stands source pos (c :: r))
    (hline : ∀ s, c = '/' → r = '/' :: s → False) (hblock : ∀ s, c = '/' → r = '*' :: s → False) :
    Runs (triviaTurn source pos)
      (.ok (if isBlank c then some (pos + c.utf8Size, breaksLine c) else none)) := by
  -- a slash starts no comment without the second mark behind it
  have hnext (d : Char) (hd : IsAscii d) (hr : ∀ s, c = '/' → r = d :: s → False) :
      (isAt source (· == '/') pos && isAt source (· == d) (pos + 1)) = false := by
    rw [isAt_char (by decide) h, Bool.and_eq_false_imp]
    intro hc
    obtain rfl : c = '/' := by simpa using hc
    rw [isAt_char hd (show Stands source (pos + 1) r from h.cons)]
    cases r with
    | nil => rfl
    | cons e r => exact beq_eq_false_iff_ne.2 fun he => hr r rfl (he ▸ rfl)
  unfold triviaTurn
  rw [isAt_char (by decide) h, isAt_eq isAscii_of_space h, hnext '/' (by decide) hline,
    hnext '*' (by decide) hblock, isNone_byte? h]
  by_cases hfeed : c = '\n'
  · subst hfeed
    exact Runs.pure _
  by_cases hspace : (c == ' ' || c == '\t' || c == '\r') = true
  · simp only [Bool.or_eq_true, beq_iff_eq] at hspace
    rcases hspace with (rfl | rfl) | rfl <;> exact Runs.pure _
  have hfeed' : (c == '\n') = false := beq_eq_false_iff_ne.2 hfeed
  rw [List.head?_cons, Option.any_some, Option.any_some, hfeed', if_neg Bool.false_ne_true,
    if_neg hspace, if_neg Bool.false_ne_true, if_neg Bool.false_ne_true]
  refine Runs.lift (textFrom?_eq h) ?_
  rw [String.toList_ofList, breaksLine, hfeed', Bool.false_or]
  dsimp only
  split <;> exact Runs.pure _

theorem trivia_stop (h : Runs (triviaTurn source pos) (.ok none)) :
    Runs (trivia source pos broken) (.ok (pos, broken)) := by
  unfold trivia
  exact h.bind_ok (Runs.pure _)

theorem trivia_error {e : SourceError} (h : Runs (triviaTurn source pos) (.error e)) :
    Runs (trivia source pos broken) (.error e) := by
  unfold trivia
  exact h.bind_error

theorem byteSize_take_append (as bs : List Char) (n : Nat) :
    byteSize ((as ++ bs).take (n + as.length)) = byteSize as + byteSize (bs.take n) := by
  rw [Nat.add_comm, List.take_length_add_append, byteSize_append]

/-- A turn passes `as`, and the turns behind it pass what they count in `x`. -/
theorem trivia_turn {x : Except SourceError (Nat × Bool)} (as bs : List Char) (breaks : Bool)
    (hturn : Runs (triviaTurn source pos) (.ok (some (pos + byteSize as, breaks)))) (hne : as ≠ [])
    (hcs : cs = as ++ bs) (h : Stands source pos cs) (hn : n = as.length)
    (hrest : Stands source (pos + byteSize as) bs →
      Runs (trivia source (pos + byteSize as) (broken || breaks))
        (x.map fun (n, b) => (pos + byteSize as + byteSize (bs.take n), b))) :
    Runs (trivia source pos broken)
      ((x >>= fun (m, b) => .ok (m + n, b)).map fun (n, b) =>
        (pos + byteSize (cs.take n), b)) := by
  subst hcs hn
  unfold trivia
  refine hturn.bind_ok ?_
  dsimp only
  rw [if_pos (getsAhead_of_stands (Nat.lt_add_of_pos_right (byteSize_pos hne)) h.append)]
  -- what the turns behind give is counted from their start; it remains to count from this one
  refine cast (congrArg (Runs _) ?_) (hrest h.append)
  cases x with
  | error e => rfl
  | ok a =>
    obtain ⟨n, b⟩ := a
    change Except.ok (pos + byteSize as + byteSize (bs.take n), b) =
      .ok (pos + byteSize ((as ++ bs).take (n + as.length)), b)
    rw [byteSize_take_append, Nat.add_assoc]

theorem trivia_runs (broken : Bool) (h : Stands source pos cs) : Runs (trivia source pos broken)
    ((Scan.trivia pos broken cs).map fun (n, b) => (pos + byteSize (cs.take n), b)) := by
  fun_induction Scan.trivia pos broken cs with
  | case1 => exact trivia_stop (triviaTurn_nil h)
  | case2 pos broken r line ih =>
    have hline : r = line ++ r.drop line.length := by
      rw [Scan.drop_length_takeWhile]
      exact List.takeWhile_append_dropWhile.symm
    have hsize : pos + byteSize ('/' :: '/' :: line) = pos + 2 + byteSize line := by
      rw [byteSize_slashes, Nat.add_assoc]
    refine trivia_turn ('/' :: '/' :: line) (r.drop line.length) false ?_ (by simp)
      (by rw [List.cons_append, List.cons_append, ← hline]) h rfl ?_
    · rw [hsize]
      exact triviaTurn_line h
    · rw [hsize, Bool.or_false]
      exact ih
  | case3 pos broken r hbody =>
    have hturn := triviaTurn_block h
    rw [hbody] at hturn
    exact trivia_error hturn
  | case4 pos broken r body hbody ih =>
    have hturn := triviaTurn_block h
    rw [hbody] at hturn
    obtain ⟨rest, rfl, -⟩ := Scan.commentBody?_eq_some hbody
    have hsize : pos + byteSize ('/' :: '*' :: (body ++ ['*', '/'])) = pos + 4 + byteSize body := by
      have hslash : '/'.utf8Size = 1 := rfl
      have hstar : '*'.utf8Size = 1 := rfl
      simp only [byteSize_cons, byteSize_append, byteSize_nil, hslash, hstar]
      omega
    have hrest : (body ++ '*' :: '/' :: rest).drop (body.length + 2) = rest := by simp
    rw [hrest] at ih ⊢
    refine trivia_turn ('/' :: '*' :: (body ++ ['*', '/'])) rest (body.contains '\n') ?_ (by simp)
      (by simp) h (show body.length + 4 = _ by simp) ?_
    · rw [hsize]
      exact hturn
    · rw [hsize]
      exact ih
  | case5 pos broken c r hline hblock hc ih =>
    have hturn := triviaTurn_cons h hline hblock
    rw [if_pos hc] at hturn
    exact trivia_turn [c] r _ hturn (by simp) rfl h rfl ih
  | case6 pos broken c r hline hblock hc =>
    have hturn := triviaTurn_cons h hline hblock
    rw [if_neg hc] at hturn
    exact trivia_stop hturn

end ByteScan

end DebugGuard
