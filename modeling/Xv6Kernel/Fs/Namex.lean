import Xv6Kernel.Fs.Path

/-!
# What `namex` reads of a path

The elements `skipelem` takes from a path, and the link branch of `namex`.

* `skipelem_elements`: `skipelem` returns 0 exactly when what remains is empty or only slashes;
  the loop `while((path = skipelem(path, name)) != 0)` takes the path's non-empty `/`-separated
  elements in order, each cut to `DIRSIZ` bytes, returns rests that do not start with `/`, and
  stops after the last element; each call leaves in the `name` buffer the element's first
  `min len DIRSIZ` bytes, with a NUL after them when `len < DIRSIZ`.
* `namecmp_skipelemName`: the model gives `name` as the list of those bytes, which `dirlookup`
  compares as it does the buffer, whatever the buffer held before.
* `namei_long_link_fault`: `namex` reads a link's target with `readi(ip, 0, symlink_target, 0,
  MAXPATH)` and then writes `symlink_target[ip->size] = '\0'` with the size unchecked. A link of
  `MAXPATH` bytes or more makes it write past the buffer. Such a link is reached by writing into
  the entry of a link: `open` returns one when a path ends at a link inside a link's target, which
  the walk of the target does not follow.
-/

namespace Xv6.Fs

/-! ## The elements of a path -/

/-- The non-empty `/`-separated elements of a path. -/
def elements (path : List UInt8) : List (List UInt8) :=
  (path.splitOn slash).filter (· ≠ [])

@[simp] theorem elements_nil : elements [] = [] := rfl

theorem elements_slash (p : List UInt8) : elements (slash :: p) = elements p := by
  simp [elements, List.splitOn, List.splitOnP_cons]

/-- An element followed by the end of the path or by a `/`. -/
theorem elements_append {e rest : List UInt8} (he : e ≠ []) (hs : ∀ b ∈ e, (b != slash) = true)
    (hr : ∀ a r, rest = a :: r → a = slash) : elements (e ++ rest) = e :: elements rest := by
  have hs' : ∀ b ∈ e, ¬ (b == slash) = true := fun b hb => by simpa using hs b hb
  rcases rest with _ | ⟨a, r⟩
  · simp [elements, List.splitOn, List.splitOnP_eq_single _ _ hs', he]
  · obtain rfl := hr a r rfl
    rw [elements_slash]
    simp [elements, List.splitOn, List.splitOnP_first _ _ hs' _ (beq_self_eq_true slash), he]

theorem elements_dropWhile : ∀ path : List UInt8,
    elements (path.dropWhile (· == slash)) = elements path
  | [] => rfl
  | a :: p => by
    by_cases ha : a = slash
    · subst ha
      rw [List.dropWhile_cons_of_pos (p := (· == slash)) (beq_self_eq_true slash), elements_dropWhile p,
        elements_slash]
    · rw [List.dropWhile_cons_of_neg (by simpa using ha)]


/-- A list that `dropWhile p` leaves does not start with an element that `p` takes. -/
theorem head_dropWhile_ne {p : UInt8 → Bool} {l r : List UInt8} {a : UInt8}
    (h : l.dropWhile p = a :: r) : p a = false := by
  simpa [h] using List.head?_dropWhile_not p l

/-- The elements of a path that holds one: the bytes up to the next `/` after the leading
slashes, then the elements of what follows them. -/
theorem elements_eq_cons {path : List UInt8} {a : UInt8} {p : List UInt8}
    (h : path.dropWhile (· == slash) = a :: p) :
    elements path = (a :: p).takeWhile (· != slash) ::
      elements (((a :: p).dropWhile (· != slash)).dropWhile (· == slash)) := by
  have ha : (a != slash) = true := by simpa using head_dropWhile_ne h
  rw [← elements_dropWhile path, h, elements_dropWhile]
  conv_lhs => rw [← List.takeWhile_append_dropWhile (· != slash) (a :: p)]
  refine elements_append (by simp only [List.takeWhile_cons_of_pos (p := (· != slash)) ha]; simp)
    (fun b hb => List.mem_takeWhile_imp (p := (· != slash)) hb) (fun b r hr => ?_)
  simpa using head_dropWhile_ne hr

/-- A path of slashes only has no element. -/
theorem elements_eq_nil {path : List UInt8} (h : ∀ b ∈ path, b = slash) : elements path = [] := by
  rw [← elements_dropWhile, List.dropWhile_eq_nil_iff.2 (by simpa using h), elements_nil]

/-- `skipelem` returns 0 exactly when what remains is empty or only slashes. -/
theorem skipelem_eq_none_iff {path : List UInt8} : skipelem path = none ↔ ∀ b ∈ path, b = slash := by
  have e : path.dropWhile (· == slash) = [] ↔ ∀ b ∈ path, b = slash := by
    simp [List.dropWhile_eq_nil_iff]
  rw [← e]
  cases hq : path.dropWhile (· == slash) <;> simp [skipelem, hq]

/-- One call of `skipelem` that returns non-zero takes the first element, cut to `DIRSIZ` bytes,
and returns a rest that holds the other elements and does not start with `/`. -/
theorem skipelem_some {path rest name : List UInt8} (h : skipelem path = some (rest, name)) :
    ∃ e, elements path = e :: elements rest ∧ name = e.take DIRSIZ ∧ rest.head? ≠ some slash := by
  unfold skipelem at h
  cases hq : path.dropWhile (· == slash) with
  | nil => rw [hq] at h; cases h
  | cons a p =>
    rw [hq] at h
    cases h
    refine ⟨_, elements_eq_cons hq, rfl, fun hr => ?_⟩
    obtain ⟨r, hr⟩ := List.head?_eq_some_iff.1 hr
    simpa using head_dropWhile_ne hr

/-- The calls of the loop `while((path = skipelem(path, name)) != 0)` from `path`, each with the
rest of the path it returns and `name`, up to the call that returns 0. -/
def skipelems : Nat → List UInt8 → List (List UInt8 × List UInt8)
  | 0, _ => []
  | fuel + 1, path =>
    match skipelem path with
    | none => []
    | some (rest, name) => (rest, name) :: skipelems fuel rest

theorem skipelems_spec : ∀ (f : Nat) (path : List UInt8), path.length < f →
    (skipelems f path).map Prod.snd = (elements path).map (·.take DIRSIZ) ∧
    (∀ r ∈ skipelems f path, r.1.head? ≠ some slash) ∧
    skipelem (((skipelems f path).getLast?.map Prod.fst).getD path) = none
  | 0, _, h => absurd h (Nat.not_lt_zero _)
  | f + 1, path, h => by
    cases hs : skipelem path with
    | none =>
      simp [skipelems, hs, elements_eq_nil (skipelem_eq_none_iff.1 hs)]
    | some r =>
      obtain ⟨rest, name⟩ := r
      obtain ⟨e, he, rfl, hr⟩ := skipelem_some hs
      obtain ⟨ih₁, ih₂, ih₃⟩ := skipelems_spec f rest (by have := skipelem_length_lt hs; omega)
      refine ⟨by simp only [skipelems, hs, List.map_cons, ih₁, he], ?_, ?_⟩
      · simp only [skipelems, hs, List.mem_cons]
        rintro _ (rfl | hm)
        exacts [hr, ih₂ _ hm]
      · simp only [skipelems, hs, List.getLast?_cons]
        cases hl : (skipelems f rest).getLast? <;> simp_all


/-- `name` after a call of `skipelem(path, name)` that returns non-zero, for the element `s` of
`len` bytes: `memmove(name, s, DIRSIZ)` when `len >= DIRSIZ`, otherwise `memmove(name, s, len)`
and `name[len] = 0`, the bytes after that left as they were. -/
def skipelemName (path name : List UInt8) : List UInt8 :=
  let s := (path.dropWhile (· == slash)).takeWhile (· != slash)
  if DIRSIZ ≤ s.length then s.take DIRSIZ else s ++ 0 :: name.drop (s.length + 1)

/-- The element that `skipelemName` copies is the first of the path. -/
theorem skipelemName_eq {path : List UInt8} {e : List UInt8} {es : List (List UInt8)}
    (h : elements path = e :: es) (name : List UInt8) :
    skipelemName path name = if DIRSIZ ≤ e.length then e.take DIRSIZ
      else e ++ 0 :: name.drop (e.length + 1) := by
  cases hq : path.dropWhile (· == slash) with
  | nil => rw [elements_eq_nil (skipelem_eq_none_iff.1 (by simp [skipelem, hq]))] at h; cases h
  | cons a p =>
    rw [elements_eq_cons hq] at h
    cases h
    simp only [skipelemName, hq]

/-- The buffer holds the element's first `min len DIRSIZ` bytes, then a NUL if `len < DIRSIZ`,
and keeps its size. -/
theorem skipelemName_bytes {path e : List UInt8} {es : List (List UInt8)}
    (h : elements path = e :: es) (name : List UInt8) :
    (skipelemName path name).take (min e.length DIRSIZ) = e.take DIRSIZ ∧
    (e.length < DIRSIZ → (skipelemName path name).get? e.length = some 0) ∧
    (name.length = DIRSIZ → (skipelemName path name).length = DIRSIZ) := by
  rw [skipelemName_eq h]
  split_ifs with hl
  · exact ⟨by simp [Nat.min_eq_right hl], fun h' => absurd hl (Nat.not_le.2 h'),
      fun _ => by simpa using hl⟩
  · have hl' : e.length < DIRSIZ := Nat.lt_of_not_le hl
    refine ⟨?_, fun _ => ?_, fun hn => ?_⟩
    · rw [Nat.min_eq_left hl'.le, List.take_append_of_le_length le_rfl, List.take_length,
        List.take_of_length_le hl'.le]
    · rw [List.get?_eq_getElem?, List.getElem?_append_right le_rfl, Nat.sub_self,
        List.getElem?_cons_zero]
    · simp only [List.length_append, List.length_cons, List.length_drop, hn]
      omega

/-- `strncmp` stops at the first NUL of its first string: what follows it is never read. -/
theorem strncmp_append_zero : ∀ (n : Nat) (e t q : List UInt8),
    strncmp n (e ++ 0 :: t) q = strncmp n e q
  | 0, _, _, _ => rfl
  | n + 1, [], t, q => by simp [strncmp]
  | n + 1, a :: e, t, q => by
    simp only [strncmp, List.cons_append, List.headD_cons, List.tail_cons, strncmp_append_zero n e t]

/-- The list that the model gives `name` compares in `dirlookup` as the buffer does, whatever the
buffer held before. -/
theorem namecmp_skipelemName {path rest name : List UInt8} (h : skipelem path = some (rest, name))
    (buf q : List UInt8) : namecmp (skipelemName path buf) q = namecmp name q := by
  obtain ⟨e, he, rfl, -⟩ := skipelem_some h
  rw [skipelemName_eq he]
  split_ifs with hl
  · rfl
  · rw [namecmp, strncmp_append_zero, List.take_of_length_le (by omega)]
    rfl

/-- The path elements `namex` walks: `skipelem` returns 0 exactly when what remains is empty or
only slashes; a call that returns non-zero leaves in `name`, whatever it held, the first element's
first `min len DIRSIZ` bytes, followed by a NUL when `len < DIRSIZ`; and the loop over `skipelem`
from the path, with fuel to spare, takes the path's non-empty `/`-separated elements in order,
each cut to `DIRSIZ` bytes, returns rests that do not start with `/`, and ends with a call that
returns 0. -/
theorem skipelem_elements (path : List UInt8) :
    (skipelem path = none ↔ ∀ b ∈ path, b = slash) ∧
    (∀ e es name, elements path = e :: es →
      (skipelemName path name).take (min e.length DIRSIZ) = e.take DIRSIZ ∧
      (e.length < DIRSIZ → (skipelemName path name).get? e.length = some 0)) ∧
    ∀ f, path.length < f →
      (skipelems f path).map Prod.snd = (elements path).map (·.take DIRSIZ) ∧
      (∀ r ∈ skipelems f path, r.1.head? ≠ some slash) ∧
      skipelem (((skipelems f path).getLast?.map Prod.fst).getD path) = none :=
  ⟨skipelem_eq_none_iff, fun _ _ name he => ⟨(skipelemName_bytes he name).1,
    (skipelemName_bytes he name).2.1⟩, fun f hf => skipelems_spec f path hf⟩

example : skipelems 9 (ascii "///a//bb") = [(ascii "bb", ascii "a"), ([], ascii "bb")] := by
  decide

/-! ## A link as long as the path buffer -/

/-- The entry of `/l2` in `linkImage` (inode 3) with its target rewritten to the 128-byte path
`/l3` followed by 125 slashes: `iget`, `ilock`, a `writei` of 128 bytes at offset 0, `iunlock`,
`iput`. -/
def longLink : FS :=
  match exec linkImage (.iget 3) >>= (exec · (.ilock 0)) >>=
      (exec · (.writei 0 (fun k => (ascii "/l3").getD k slash) (fun _ _ => true) 0 128)) >>=
      (exec · (.iunlock 0)) >>= (exec · (.iput 0)) with
  | .ok s => s
  | .error _ => linkImage

theorem longLink_reachable : Reachable longLink :=
  .step (.iput 0) (.step (.iunlock 0)
    (.step (.writei 0 (fun k => (ascii "/l3").getD k slash) (fun _ _ => true) 0 128)
      (.step (.ilock 0) (.step (.iget 3) (.init linkImage_image) trivial rfl) ⟨by decide, by decide⟩ rfl)
      ⟨⟨⟨by decide, by decide⟩, by decide⟩, by decide, by decide⟩ rfl)
    ⟨by decide, by decide⟩ rfl) ⟨by decide, by decide⟩ rfl

/-- A link of `MAXPATH` bytes, reached from `linkImage` through the inode operations: `namei("/l2")`
reads all 128 bytes of its target into `symlink_target[MAXPATH]` and then writes the NUL at
`symlink_target[128]`, past the buffer. -/
theorem namei_long_link_fault :
    Reachable longLink ∧ (longLink.disk.dinode 3).type = .symlink ∧
    (longLink.disk.dinode 3).size = longLink.MAXPATH ∧
    namei longLink 0 (ascii "/l2") = .error .fault :=
  ⟨longLink_reachable, by decide, by decide, rfl⟩

end Xv6.Fs
