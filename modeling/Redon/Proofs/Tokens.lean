import Redon.Router

/-!
# Tokens of a line

White space at the end of a line changes neither its verb nor its key, so the router and the shard
see the same ones (`verbAndKey_eq`). A key is free of white space, and the rest of a line starts
and ends with something else (`key_spec`, `rest_spec`); a line made of such parts splits into them
again (`lineTokens_verb`, `nextToken_solid_append`).
-/

namespace Redon

open Lib

section Spaces

variable {s t w : Bytes}

def Spaces (w : Bytes) : Prop := ∀ c ∈ w, isSpace c = true

def Solid (t : Bytes) : Prop := ∀ c ∈ t, isSpace c = false

theorem takeWhile_spaces (hw : Spaces w) : (w.takeWhile fun c => !isSpace c) = [] := by
  cases w with
  | nil => rfl
  | cons c w => simp [hw c List.mem_cons_self]

theorem dropWhile_spaces (hw : Spaces w) : (w.dropWhile fun c => !isSpace c) = w := by
  cases w with
  | nil => rfl
  | cons c w => simp [hw c List.mem_cons_self]

theorem takeWhile_append_spaces (hw : Spaces w) : ∀ s : Bytes,
    ((s ++ w).takeWhile fun c => !isSpace c) = s.takeWhile fun c => !isSpace c
  | [] => takeWhile_spaces hw
  | c :: s => by
    rw [List.cons_append, List.takeWhile_cons, List.takeWhile_cons, takeWhile_append_spaces hw s]

theorem dropWhile_append_spaces (hw : Spaces w) : ∀ s : Bytes,
    ((s ++ w).dropWhile fun c => !isSpace c) = (s.dropWhile fun c => !isSpace c) ++ w
  | [] => dropWhile_spaces hw
  | c :: s => by
    rw [List.cons_append, List.dropWhile_cons, List.dropWhile_cons, dropWhile_append_spaces hw s]
    split_ifs <;> rfl

theorem skipSpaces_append_spaces (hw : Spaces w) : ∀ s : Bytes,
    ∃ w', Spaces w' ∧ skipSpaces (s ++ w) = skipSpaces s ++ w'
  | [] => ⟨skipSpaces w, fun c hc => hw c (List.dropWhile_sublist _ |>.subset hc), rfl⟩
  | c :: s => by
    obtain ⟨w', hw', he⟩ := skipSpaces_append_spaces hw s
    unfold skipSpaces at he ⊢
    rw [List.cons_append, List.dropWhile_cons, List.dropWhile_cons]
    split_ifs
    · exact ⟨w', hw', he⟩
    · exact ⟨w, hw, rfl⟩

theorem takeWhile_solid (ht : Solid t) (hs : ∀ c ∈ s.head?, isSpace c = true) :
    ((t ++ s).takeWhile fun c => !isSpace c) = t := by
  rw [List.takeWhile_append_of_pos fun c hc => by simp [ht c hc]]
  cases s with
  | nil => simp
  | cons c s => simp [hs c rfl]

theorem dropWhile_solid (ht : Solid t) (hs : ∀ c ∈ s.head?, isSpace c = true) :
    ((t ++ s).dropWhile fun c => !isSpace c) = s := by
  rw [List.dropWhile_append_of_pos fun c hc => by simp [ht c hc]]
  cases s with
  | nil => rfl
  | cons c s => simp [hs c rfl]

theorem skipSpaces_of_head (hs : ∀ c ∈ s.head?, isSpace c = false) : skipSpaces s = s := by
  cases s with
  | nil => rfl
  | cons c s => simp [skipSpaces, hs c rfl]

theorem head_skipSpaces (s : Bytes) : ∀ c ∈ (skipSpaces s).head?, isSpace c = false := by
  intro c hc
  have := List.head?_dropWhile_not isSpace s
  unfold skipSpaces at hc
  rw [Option.mem_def.1 hc] at this
  simpa using this

theorem skipSpaces_suffix (s : Bytes) : skipSpaces s <:+ s := List.dropWhile_suffix _

theorem skipBom_suffix (s : Bytes) : skipBom s <:+ s := by
  unfold skipBom
  split
  · exact (skipSpaces_suffix _).trans ⟨[0xEF, 0xBB, 0xBF], rfl⟩
  · exact List.suffix_rfl

theorem nextToken_solid_append (ht : Solid t) (hs : ∀ c ∈ s.head?, isSpace c = false) :
    nextToken (t ++ 32 :: s) = (t, s) := by
  have hsp : ∀ c ∈ ((32 : UInt8) :: s).head?, isSpace c = true := by
    intro c hc
    rw [List.head?_cons, Option.mem_some_iff] at hc
    rw [← hc]
    rfl
  rw [nextToken, takeWhile_solid ht hsp, dropWhile_solid ht hsp]
  exact congrArg (Prod.mk t) (skipSpaces_of_head hs)

theorem nextToken_last (ht : Solid t) : nextToken t = (t, []) := by
  have h₁ := takeWhile_solid (s := []) ht nofun
  have h₂ := dropWhile_solid (s := []) ht nofun
  rw [List.append_nil] at h₁ h₂
  rw [nextToken, h₁, h₂]
  rfl

theorem nextToken_suffix (s : Bytes) : (nextToken s).2 <:+ s :=
  (skipSpaces_suffix _).trans (List.dropWhile_suffix _)

theorem nextToken_solid (s : Bytes) : Solid (nextToken s).1 := by
  intro c hc
  simpa using List.mem_takeWhile_imp hc

theorem newline_toUpper {t : Bytes} (ht : Solid t) : 10 ∉ toUpper t := by
  intro hc
  obtain ⟨c, hc, he⟩ := List.mem_map.1 hc
  have hs := ht c hc
  split_ifs at he with hup
  · grind
  · rw [he] at hs
    cases hs

end Spaces

section Line

variable {line : Bytes}

/-- The verb in upper case, the key and the rest, as the command layer splits a line. -/
def lineTokens (line : Bytes) : Bytes × Bytes × Bytes :=
  (toUpper (nextToken (trim line)).1, nextToken (nextToken (trim line)).2)

theorem executeLine_eq (e : ExecEnv) (x : ExecState) (line : Bytes) : x.executeLine e line
    = if (trim line).isEmpty then x.answer []
      else x.executeTokens e (lineTokens line).1 (lineTokens line).2.1 (lineTokens line).2.2 := rfl

/-- The router and the command layer agree on the verb and the key. -/
theorem verbAndKey_eq (line : Bytes) :
    verbAndKey line = ((lineTokens line).1, (lineTokens line).2.1) := by
  have hsplit : trim line ++ (skipBom (skipSpaces line)).rtakeWhile isSpace
      = skipBom (skipSpaces line) := List.rdropWhile_append_rtakeWhile
  have hw : Spaces ((skipBom (skipSpaces line)).rtakeWhile isSpace) :=
    fun c hc => List.mem_rtakeWhile_imp hc
  unfold verbAndKey lineTokens nextToken
  simp only []
  rw [← hsplit, takeWhile_append_spaces hw, dropWhile_append_spaces hw]
  obtain ⟨w', hw', he⟩ := skipSpaces_append_spaces hw ((trim line).dropWhile fun c => !isSpace c)
  rw [he, takeWhile_append_spaces hw']

/-- For every line the router's scan in place finds the verb and the key that the command layer
finds after trimming, both empty if nothing is left, so executing a line goes by the router's
tokens. -/
theorem tokenizers_agree (line : Bytes) :
    verbAndKey line = (toUpper (nextToken (trim line)).1, (nextToken (nextToken (trim line)).2).1)
    ∧ (trim line = [] → verbAndKey line = ([], []))
    ∧ ∀ (e : ExecEnv) (x : ExecState), x.executeLine e line
      = if trim line = [] then x.answer []
        else x.executeTokens e (verbAndKey line).1 (verbAndKey line).2
          (nextToken (nextToken (trim line)).2).2 := by
  have heq := verbAndKey_eq line
  refine ⟨heq, fun hnil => ?_, fun e x => ?_⟩
  · rw [heq, lineTokens, hnil]
    rfl
  · rw [executeLine_eq, heq]
    simp only [List.isEmpty_iff]
    rfl

theorem lineTokens_blank (h : trim line = []) : lineTokens line = ([], [], []) := by
  rw [lineTokens, h]
  rfl

theorem trim_of_verb (h : (lineTokens line).1 ≠ []) : (trim line).isEmpty = false :=
  List.isEmpty_eq_false_iff.2 fun ht => h (by rw [lineTokens_blank ht])

theorem trim_ne_nil (h : (lineTokens line).2.1 ≠ []) : (trim line).isEmpty = false :=
  List.isEmpty_eq_false_iff.2 fun ht => h (by rw [lineTokens_blank ht])

theorem head_skipped (line : Bytes) :
    ∀ c ∈ (skipBom (skipSpaces line)).head?, isSpace c = false := by
  unfold skipBom
  split
  · exact head_skipSpaces _
  · exact head_skipSpaces line

theorem trim_front (line : Bytes) : trim line <+: skipBom (skipSpaces line) :=
  List.rdropWhile_prefix isSpace _

theorem verb_ne_nil (h : (lineTokens line).2.1 ≠ []) : (lineTokens line).1 ≠ [] := by
  intro hv
  have hne : trim line ≠ [] := List.isEmpty_eq_false_iff.1 (trim_ne_nil h)
  obtain ⟨c, s, hs⟩ := List.exists_cons_of_ne_nil hne
  obtain ⟨t, ht⟩ := trim_front line
  have hc : isSpace c = false := head_skipped line c (by rw [← ht, hs]; rfl)
  rw [lineTokens, nextToken, hs, toUpper, List.map_eq_nil_iff, List.takeWhile_cons, hc] at hv
  cases hv

theorem skipped_suffix (line : Bytes) : skipBom (skipSpaces line) <:+ line :=
  (skipBom_suffix _).trans (skipSpaces_suffix line)

theorem last_trim (line : Bytes) : ∀ c ∈ (trim line).getLast?, isSpace c = false := by
  intro c hc
  have hne : trim line ≠ [] := by
    rintro h
    rw [h] at hc
    cases hc
  have hlast : ¬ isSpace ((trim line).getLast hne) = true := List.rdropWhile_last_not _ _ hne
  rw [List.getLast?_eq_some_getLast hne] at hc
  rw [← Option.some.inj hc]
  simpa using hlast

theorem rest_suffix (line : Bytes) : (lineTokens line).2.2 <:+ trim line :=
  (nextToken_suffix _).trans (nextToken_suffix _)

/-- The rest of a line is part of it, and neither starts nor ends in white space. -/
theorem rest_spec (line : Bytes) : (∀ c ∈ (lineTokens line).2.2, c ∈ line)
    ∧ (lineTokens line).2.2.length ≤ line.length
    ∧ (∀ c ∈ (lineTokens line).2.2.head?, isSpace c = false)
    ∧ ∀ c ∈ (lineTokens line).2.2.getLast?, isSpace c = false := by
  have hsuf := rest_suffix line
  refine ⟨fun c hc => ?_, ?_, head_skipSpaces _, fun c hc => last_trim line c ?_⟩
  · exact (skipped_suffix line).subset ((trim_front line).subset (hsuf.subset hc))
  · exact hsuf.length_le.trans
      ((trim_front line).length_le.trans (skipped_suffix line).length_le)
  · obtain ⟨t, ht⟩ := hsuf
    rw [← ht, List.getLast?_append, Option.mem_def.1 hc]
    rfl

/-- The key of a line is part of it and free of white space. -/
theorem key_spec (line : Bytes) : Solid (lineTokens line).2.1
    ∧ (∀ c ∈ (lineTokens line).2.1, c ∈ line) := by
  refine ⟨nextToken_solid _, fun c hc => ?_⟩
  have hkey : c ∈ (nextToken (trim line)).2 := List.takeWhile_sublist _ |>.subset hc
  exact (skipped_suffix line).subset
    ((trim_front line).subset ((nextToken_suffix _).subset hkey))

theorem verb_spec (line : Bytes) : 10 ∉ (lineTokens line).1
    ∧ (lineTokens line).1.length ≤ line.length := by
  refine ⟨newline_toUpper (nextToken_solid _), ?_⟩
  rw [lineTokens, toUpper, List.length_map]
  exact (List.takeWhile_sublist _).length_le.trans
    ((trim_front line).length_le.trans (skipped_suffix line).length_le)

theorem trim_eq {c : UInt8} {s : Bytes} (hc : isSpace c = false) (hb : c ≠ 0xEF)
    (hs : ∀ b ∈ (c :: s).getLast?, isSpace b = false) : trim (c :: s) = c :: s := by
  have hskip : skipSpaces (c :: s) = c :: s := skipSpaces_of_head (by simpa using hc)
  have hbom : skipBom (c :: s) = c :: s := by
    unfold skipBom
    split
    · rename_i heq
      exact absurd (List.cons.inj heq).1 hb
    · rfl
  rw [trim, hskip, hbom, List.rdropWhile_eq_self_iff]
  intro hne
  rw [hs _ (List.getLast?_eq_some_getLast hne)]
  exact Bool.false_ne_true

theorem lineTokens_verb {c : UInt8} {w args : Bytes} (hw : Solid (c :: w)) (hb : c ≠ 0xEF)
    (hne : args ≠ []) (hhead : ∀ b ∈ args.head?, isSpace b = false)
    (hlast : ∀ b ∈ args.getLast?, isSpace b = false) :
    lineTokens (c :: w ++ 32 :: args) = (toUpper (c :: w), nextToken args) := by
  have htrim : trim (c :: w ++ 32 :: args) = c :: w ++ 32 :: args := by
    have hsplit : c :: (w ++ 32 :: args) = (c :: w ++ [32]) ++ args := by simp
    rw [List.cons_append]
    refine trim_eq (hw c List.mem_cons_self) hb fun b hbl => hlast b ?_
    rwa [hsplit, List.getLast?_append_of_ne_nil _ hne] at hbl
  rw [lineTokens, htrim, nextToken_solid_append hw hhead]

end Line

end Redon
