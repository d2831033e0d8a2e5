import Mathlib.Data.List.Basic

/-! Reading a text word by word, where words are the runs between separators,
and putting words together again. -/

namespace Words
variable {α : Type*} (sep : α → Bool)

def wordsFrom : List α → List α → List (List α)
  | word, [] => if word.isEmpty then [] else [word]
  | word, a :: input =>
    if sep a then
      if word.isEmpty then wordsFrom [] input else word :: wordsFrom [] input
    else wordsFrom (word ++ [a]) input

def words (input : List α) : List (List α) := wordsFrom sep [] input

def join (space : α) (ws : List (List α)) : List α :=
  ws.foldl (fun out w => (if out.isEmpty then out else out ++ [space]) ++ w) []

def Plain (w : List α) : Prop := w ≠ [] ∧ ∀ a ∈ w, sep a = false

variable {sep}

theorem wordsFrom_append {w : List α} (hw : ∀ a ∈ w, sep a = false) (word rest : List α) :
    wordsFrom sep word (w ++ rest) = wordsFrom sep (word ++ w) rest := by
  induction w generalizing word with
  | nil => simp
  | cons a w ih =>
    have ha := hw a (by simp)
    rw [List.cons_append, wordsFrom, ha, if_neg (by simp), ih fun b hb => hw b (by simp [hb])]
    simp

theorem foldl_join (space : α) (ws : List (List α)) {out : List α} (hout : out ≠ []) :
    ws.foldl (fun out w => (if out.isEmpty then out else out ++ [space]) ++ w) out =
      out ++ ws.flatMap (space :: ·) := by
  induction ws generalizing out with
  | nil => simp
  | cons w ws ih =>
    have hnext : (if out.isEmpty then out else out ++ [space]) ++ w = out ++ space :: w := by
      simp [hout]
    rw [List.foldl_cons, hnext, ih (by simp)]
    simp

theorem words_flatMap {space : α} (hspace : sep space = true) {w : List α} {ws : List (List α)}
    (hw : Plain sep w) (hws : ∀ v ∈ ws, Plain sep v) :
    words sep (w ++ ws.flatMap (space :: ·)) = w :: ws := by
  induction ws generalizing w with
  | nil =>
    rw [words, wordsFrom_append hw.2]
    simp [wordsFrom, hw.1]
  | cons v ws ih =>
    have hrest := ih (hws v (by simp)) fun u hu => hws u (by simp [hu])
    rw [words, wordsFrom_append hw.2, List.flatMap_cons, List.cons_append, wordsFrom, hspace,
      if_pos rfl, if_neg (by simp [hw.1])]
    simpa [words] using hrest

theorem words_join {space : α} (hspace : sep space = true) {ws : List (List α)}
    (hws : ∀ w ∈ ws, Plain sep w) : words sep (join space ws) = ws := by
  cases ws with
  | nil => rfl
  | cons w ws =>
    have hw := hws w (by simp)
    have hjoin : join space (w :: ws) = w ++ ws.flatMap (space :: ·) := by
      exact foldl_join space ws (by simpa using hw.1)
    rw [hjoin]
    exact words_flatMap hspace hw fun v hv => hws v (by simp [hv])

end Words
