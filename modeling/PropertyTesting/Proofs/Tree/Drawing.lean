import Mathlib.Data.List.Forall2
import PropertyTesting.Proofs.Tree.Levels
import PropertyTesting.Tree.Drawing

/-!
What can be read back from the drawings of a tree. A drawing of a node tells where
it ends in a longer text, since what follows does not begin with the margin of the
node's children, or in brackets, since what follows begins with a bracket or a
comma: `Tree.drawnApart` and `Tree.writtenApart`. Siblings can then be
told apart one after the other, and two trees that are drawn alike show the same
texts in the same places.
-/

namespace PropertyTesting

/-- Plain text is told apart from what stands behind it if that begins, where it
is not empty, with a character that is not plain. -/
theorem plain_append_inj {p : Char → Bool} {xs ys rs ss : List Char}
    (hxs : ∀ c ∈ xs, p c) (hys : ∀ c ∈ ys, p c) (hrs : ∀ c ∈ rs.head?, p c = false)
    (hss : ∀ c ∈ ss.head?, p c = false) (h : xs ++ rs = ys ++ ss) : xs = ys ∧ rs = ss := by
  induction xs generalizing ys with
  | nil =>
    cases ys with
    | nil => exact ⟨rfl, h⟩
    | cons y ys =>
      obtain rfl : rs = y :: (ys ++ ss) := h
      have hy := hrs y rfl
      rw [hys y (.head _)] at hy
      cases hy
  | cons x xs ih =>
    cases ys with
    | nil =>
      obtain rfl : x :: (xs ++ rs) = ss := h
      have hx := hss x rfl
      rw [hxs x (.head _)] at hx
      cases hx
    | cons y ys =>
      rw [List.cons_append, List.cons_append, List.cons.injEq] at h
      obtain ⟨rfl, h⟩ := h
      obtain ⟨rfl, hrest⟩ := ih (fun c hc => hxs c (.tail _ hc)) (fun c hc => hys c (.tail _ hc)) h
      exact ⟨rfl, hrest⟩

/-- A text consists of lines, of which each ends with a line break. -/
def IsLines (text : String) (lines : List String) : Prop :=
  text = String.join (lines.map (· ++ "\n")) ∧ ∀ line ∈ lines, '\n' ∉ line.toList

theorem IsLines.append {text text' : String} {lines lines' : List String} (h : IsLines text lines)
    (h' : IsLines text' lines') : IsLines (text ++ text') (lines ++ lines') := by
  refine ⟨by rw [List.map_append, String.join_append, ← h.1, ← h'.1], fun line hline => ?_⟩
  rcases List.mem_append.1 hline with hline | hline
  · exact h.2 line hline
  · exact h'.2 line hline

theorem isLines_single {line : String} (h : '\n' ∉ line.toList) :
    IsLines (line ++ "\n") [line] := by
  refine ⟨?_, ?_⟩
  · simp
  · simpa using h

namespace Tree

open Branching Display

variable {α β : Type} [Display α] [Display β]

/-- What stands before the text of a node, behind its margin. -/
def mark (isLast : Bool) : String :=
  if isLast then "└── " else "├── "

/-- What the margin of a node's children has beyond its own. -/
def block (isLast : Bool) : String :=
  if isLast then "    " else "│   "

theorem toList_mark (isLast : Bool) :
    (mark isLast).toList = [if isLast then '└' else '├', '─', '─', ' '] := by
  cases isLast <;> rfl

theorem toList_block (isLast : Bool) :
    (block isLast).toList = [if isLast then ' ' else '│', ' ', ' ', ' '] := by
  cases isLast <;> rfl

def line (margin : String) (isLast : Bool) (text : String) : String :=
  margin ++ mark isLast ++ text

theorem draw_zero (margin : String) (isLast : Bool) (t : Tree α) :
    draw 0 margin isLast t = line margin isLast (display t.value) ++ "\n" := rfl

theorem draw_succ (depth : Nat) (margin : String) (isLast : Bool) (t : Tree α) :
    draw (depth + 1) margin isLast t =
      line margin isLast (display t.value) ++ "\n" ++
        drawRow (draw depth (margin ++ block isLast)) t.children := rfl

/-- What stands behind the text of a node in brackets, given what is said of its
children. -/
def brackets : List String → String
  | [] => ""
  | parts => "[" ++ ", ".intercalate parts ++ "]"

/-- What stands behind the first of some parts in brackets. -/
def closing : List String → String
  | [] => "]"
  | part :: parts => ", " ++ part ++ closing parts

theorem brackets_cons (part : String) (parts : List String) :
    brackets (part :: parts) = "[" ++ part ++ closing parts := by
  have hclosing : ", ".intercalate (part :: parts) ++ "]" = part ++ closing parts := by
    induction parts generalizing part with
    | nil => rw [String.intercalate_singleton, closing]
    | cons part' parts ih =>
      rw [String.intercalate_cons_cons, String.append_assoc, ih, closing, String.append_assoc,
        String.append_assoc]
  rw [brackets, String.append_assoc, hclosing, String.append_assoc]
  exact List.cons_ne_nil part parts

theorem compact_zero (t : Tree α) : compact 0 t = display t.value := rfl

theorem compact_succ (depth : Nat) (t : Tree α) :
    compact (depth + 1) t = display t.value ++ brackets (t.children.map (compact depth)) := by
  show (match t.children.map (compact depth) with
    | [] => display t.value
    | parts => display t.value ++ "[" ++ ", ".intercalate parts ++ "]") = _
  cases t.children.map (compact depth) with
  | nil => exact String.append_empty.symm
  | cons part parts => simp [brackets, String.append_assoc]

/-- A line tells its mark and its text. -/
theorem line_append_inj {margin text text' : String} {isLast isLast' : Bool} {rs ss : List Char}
    (htext : '\n' ∉ text.toList) (htext' : '\n' ∉ text'.toList)
    (h : (line margin isLast text).toList ++ ("\n".toList ++ rs) =
      (line margin isLast' text').toList ++ ("\n".toList ++ ss)) :
    isLast = isLast' ∧ text = text' ∧ rs = ss := by
  have hbreak : "\n".toList = ['\n'] := rfl
  simp only [line, String.toList_append, List.append_assoc, List.append_cancel_left_eq, toList_mark,
    List.cons_append, List.nil_append, List.cons.injEq, true_and, hbreak] at h
  obtain ⟨hmark, h⟩ := h
  obtain ⟨htexts, hrest⟩ := plain_append_inj (p := (· != '\n'))
    (fun c hc => by simpa using ne_of_mem_of_not_mem hc htext)
    (fun c hc => by simpa using ne_of_mem_of_not_mem hc htext') (by simp) (by simp) h
  refine ⟨?_, String.toList_inj.1 htexts, (List.cons.inj hrest).2⟩
  cases isLast <;> cases isLast' <;> simp at hmark ⊢

/-- A drawing begins with the margin and the mark of its root. -/
theorem exists_draw_eq (depth : Nat) (margin : String) (isLast : Bool) (t : Tree α) :
    ∃ rest, draw depth margin isLast t = margin ++ (mark isLast ++ rest) := by
  cases depth with
  | zero =>
    refine ⟨display t.value ++ "\n", ?_⟩
    simp only [draw_zero, line, String.append_assoc]
  | succ depth =>
    refine ⟨display t.value ++ "\n" ++
      drawRow (draw depth (margin ++ block isLast)) t.children, ?_⟩
    simp only [draw_succ, line, String.append_assoc]

/-- A margin goes on with a block or ends with a mark, and they differ. -/
theorem block_not_start_mark (isLast isLast' : Bool) (rs : List Char) :
    ¬ (block isLast).toList <+: (mark isLast').toList ++ rs := by
  rw [toList_block, toList_mark]
  cases isLast <;> cases isLast' <;> simp

theorem margin_prefix_drawRow (depth : Nat) (margin : String) (t : Tree α) (ts : List (Tree α))
    (rs : List Char) : margin.toList <+: (drawRow (draw depth margin) (t :: ts)).toList ++ rs := by
  obtain ⟨rest, hrest⟩ := exists_draw_eq depth margin ts.isEmpty t
  rw [drawRow, hrest]
  simp only [String.toList_append, List.append_assoc, List.prefix_append]

/-- What comes after a sibling does not go on in the margin of the sibling's
children. -/
theorem block_not_start {depth : Nat} {margin : String} {ts : List (Tree α)} {rs : List Char}
    (isLast : Bool) (hrs : ¬ margin.toList <+: rs) :
    ¬ (margin ++ block isLast).toList <+: (drawRow (draw depth margin) ts).toList ++ rs := by
  intro h
  rw [String.toList_append] at h
  cases ts with
  | nil => exact hrs ((List.prefix_append ..).trans h)
  | cons t ts =>
    obtain ⟨rest, hrest⟩ := exists_draw_eq depth margin ts.isEmpty t
    rw [drawRow, hrest] at h
    simp only [String.toList_append, List.append_assoc, List.prefix_append_right_inj] at h
    exact block_not_start_mark _ _ _ h

variable {t : Tree α} {u : Tree β} {depth : Nat}

/-- The texts of a tree down to a depth, in their places. -/
def shown (depth : Nat) (t : Tree α) : Rose String :=
  (t.map display).approx depth

@[simp] theorem value_shown (depth : Nat) (t : Tree α) :
    (shown depth t).value = display t.value :=
  value_approx ..

@[simp] theorem children_shown_zero (t : Tree α) : (shown 0 t).children = [] := by
  rw [shown, ← (t.map display).coherent 0, Rose.children_truncate_zero]

@[simp] theorem children_shown_succ (depth : Nat) (t : Tree α) :
    (shown (depth + 1) t).children = t.children.map (shown depth) := by
  rw [shown, ← map_approx_children, children_map, List.map_map]
  rfl

/-- Every text that is shown of a tree is made of characters of one kind. -/
def AllPlain (p : Char → Bool) (depth : Nat) (t : Tree α) : Prop :=
  ∀ v ∈ t.expand depth, ∀ c ∈ (display v).toList, p c

theorem AllPlain.root {p : Char → Bool} (h : AllPlain p depth t) :
    ∀ c ∈ (display t.value).toList, p c := by
  refine h t.value ?_
  rw [expand_eq, expand_eq_cons]
  exact .head _

theorem AllPlain.child {p : Char → Bool} (h : AllPlain p (depth + 1) t) :
    ∀ c ∈ t.children, AllPlain p depth c := by
  intro c hc v hv
  refine h v ?_
  rw [expand_succ]
  exact .tail _ (List.mem_flatMap.2 ⟨c, hc, hv⟩)

def unbroken (c : Char) : Bool :=
  c != '\n'

theorem AllPlain.not_mem_root (h : AllPlain unbroken depth t) : '\n' ∉ (display t.value).toList :=
  fun hc => absurd (h.root _ hc) (by decide)

/-- It is seen from the drawings of two nodes, whatever comes after them, what the
nodes show and where the drawings end. What comes after a node does not go on in the
margin of its children. -/
def DrawnApart (depth : Nat) (margin : String) (t : Tree α) (u : Tree β) : Prop :=
  ∀ {isLast isLast' : Bool} {rs ss : List Char},
    ¬ (margin ++ block isLast).toList <+: rs → ¬ (margin ++ block isLast').toList <+: ss →
    (draw depth margin isLast t).toList ++ rs = (draw depth margin isLast' u).toList ++ ss →
    shown depth t = shown depth u ∧ rs = ss

theorem drawRow_append_inj {margin : String} {rs ss : List Char} {ts : List (Tree α)}
    {us : List (Tree β)} (hdraw : ∀ t ∈ ts, ∀ u ∈ us, DrawnApart depth margin t u)
    (hrs : ¬ margin.toList <+: rs) (hss : ¬ margin.toList <+: ss)
    (h : (drawRow (draw depth margin) ts).toList ++ rs =
      (drawRow (draw depth margin) us).toList ++ ss) :
    ts.map (shown depth) = us.map (shown depth) ∧ rs = ss := by
  induction ts generalizing us with
  | nil =>
    cases us with
    | nil => exact ⟨rfl, h⟩
    | cons u us =>
      have hrow : rs = (drawRow (draw depth margin) (u :: us)).toList ++ ss := h
      exact absurd (hrow ▸ margin_prefix_drawRow ..) hrs
  | cons t ts ih =>
    cases us with
    | nil =>
      have hrow : (drawRow (draw depth margin) (t :: ts)).toList ++ rs = ss := h
      exact absurd (hrow ▸ margin_prefix_drawRow ..) hss
    | cons u us =>
      rw [drawRow, drawRow, String.toList_append, String.toList_append, List.append_assoc,
        List.append_assoc] at h
      obtain ⟨hfirst, hrest⟩ := hdraw t (.head _) u (.head _) (block_not_start _ hrs)
        (block_not_start _ hss) h
      obtain ⟨hothers, hafter⟩ := ih (fun t ht u hu => hdraw t (.tail _ ht) u (.tail _ hu)) hrest
      exact ⟨by rw [List.map_cons, List.map_cons, hfirst, hothers], hafter⟩

theorem drawnApart (margin : String) (ht : AllPlain unbroken depth t)
    (hu : AllPlain unbroken depth u) : DrawnApart depth margin t u := by
  intro isLast isLast' rs ss hrs hss h
  induction depth generalizing t u margin isLast isLast' rs ss with
  | zero =>
    simp only [draw_zero, String.toList_append, List.append_assoc] at h
    obtain ⟨-, htext, hrest⟩ := line_append_inj ht.not_mem_root hu.not_mem_root h
    exact ⟨Rose.ext (by simpa using htext) (by simp), hrest⟩
  | succ depth ih =>
    simp only [draw_succ, String.toList_append, List.append_assoc] at h
    obtain ⟨rfl, htext, hrow⟩ := line_append_inj ht.not_mem_root hu.not_mem_root h
    obtain ⟨hchildren, hrest⟩ := drawRow_append_inj
      (fun t' ht' u' hu' => ih _ (ht.child t' ht') (hu.child u' hu')) hrs hss hrow
    exact ⟨Rose.ext (by simpa using htext) (by simpa using hchildren), hrest⟩

/-- Whether a character neither opens nor closes brackets nor parts what is in them. -/
def unbracketed (c : Char) : Bool :=
  c != '[' && c != ']' && c != ','

/-- What may come after a node in brackets: more brackets or a comma, or nothing. -/
def Follows (rs : List Char) : Prop :=
  ∀ c ∈ rs.head?, c = ']' ∨ c = ','

theorem Follows.not_plain {rs : List Char} (h : Follows rs) :
    ∀ c ∈ rs.head?, unbracketed c = false := by
  intro c hc
  rcases h c hc with rfl | rfl
  · rfl
  · rfl

theorem Follows.not_open {rs rest : List Char} (h : Follows rs) : rs ≠ '[' :: rest := by
  rintro rfl
  exact absurd (h '[' rfl) (by decide)

theorem toList_brackets_cons (part : String) (parts : List String) :
    (brackets (part :: parts)).toList = '[' :: (part.toList ++ (closing parts).toList) := by
  rw [brackets_cons, String.toList_append, String.toList_append]
  rfl

theorem brackets_not_plain (parts : List String) {rs : List Char} (h : Follows rs) :
    ∀ c ∈ ((brackets parts).toList ++ rs).head?, unbracketed c = false := by
  cases parts with
  | nil => exact h.not_plain
  | cons part parts =>
    intro c hc
    rw [toList_brackets_cons] at hc
    obtain rfl : '[' = c := Option.some.inj hc
    rfl

theorem toList_closing_nil : (closing []).toList = [']'] := rfl

theorem toList_closing_cons (part : String) (parts : List String) :
    (closing (part :: parts)).toList = ',' :: ' ' :: (part.toList ++ (closing parts).toList) := by
  rw [closing, String.toList_append, String.toList_append]
  rfl

theorem follows_closing (parts : List String) (rs : List Char) :
    Follows ((closing parts).toList ++ rs) := by
  cases parts with
  | nil => simp [Follows, toList_closing_nil]
  | cons part parts => simp [Follows, toList_closing_cons]

/-- It is seen from what is written of two nodes, whatever comes after them, what
the nodes show and where the texts end. -/
def WrittenApart (depth : Nat) (t : Tree α) (u : Tree β) : Prop :=
  ∀ {rs ss : List Char}, Follows rs → Follows ss →
    (compact depth t).toList ++ rs = (compact depth u).toList ++ ss →
    shown depth t = shown depth u ∧ rs = ss

theorem parts_append_inj {ts : List (Tree α)} {us : List (Tree β)} {rs ss : List Char}
    (hfirst : WrittenApart depth t u)
    (hothers : (closing (ts.map (compact depth))).toList ++ rs =
      (closing (us.map (compact depth))).toList ++ ss →
      ts.map (shown depth) = us.map (shown depth) ∧ rs = ss)
    (h : (compact depth t).toList ++ ((closing (ts.map (compact depth))).toList ++ rs) =
      (compact depth u).toList ++ ((closing (us.map (compact depth))).toList ++ ss)) :
    (t :: ts).map (shown depth) = (u :: us).map (shown depth) ∧ rs = ss := by
  obtain ⟨hroot, hrest⟩ := hfirst (follows_closing _ _) (follows_closing _ _) h
  obtain ⟨hsiblings, hafter⟩ := hothers hrest
  exact ⟨by rw [List.map_cons, List.map_cons, hroot, hsiblings], hafter⟩

theorem closing_append_inj {ts : List (Tree α)} {us : List (Tree β)} {rs ss : List Char}
    (hcompact : ∀ t ∈ ts, ∀ u ∈ us, WrittenApart depth t u)
    (h : (closing (ts.map (compact depth))).toList ++ rs =
      (closing (us.map (compact depth))).toList ++ ss) :
    ts.map (shown depth) = us.map (shown depth) ∧ rs = ss := by
  induction ts generalizing us with
  | nil =>
    cases us with
    | nil => exact ⟨rfl, List.append_cancel_left h⟩
    | cons u us =>
      simp [toList_closing_nil, toList_closing_cons] at h
  | cons t ts ih =>
    cases us with
    | nil => simp [toList_closing_nil, toList_closing_cons] at h
    | cons u us =>
      simp only [List.map_cons, toList_closing_cons, List.cons_append, List.append_assoc,
        List.cons.injEq, true_and] at h
      exact parts_append_inj (hcompact t (.head _) u (.head _))
        (ih fun t ht u hu => hcompact t (.tail _ ht) u (.tail _ hu)) h

theorem brackets_append_inj {ts : List (Tree α)} {us : List (Tree β)} {rs ss : List Char}
    (hcompact : ∀ t ∈ ts, ∀ u ∈ us, WrittenApart depth t u)
    (hrs : Follows rs) (hss : Follows ss)
    (h : (brackets (ts.map (compact depth))).toList ++ rs =
      (brackets (us.map (compact depth))).toList ++ ss) :
    ts.map (shown depth) = us.map (shown depth) ∧ rs = ss := by
  cases ts with
  | nil =>
    cases us with
    | nil => exact ⟨rfl, h⟩
    | cons u us =>
      rw [List.map_cons, toList_brackets_cons] at h
      exact absurd h hrs.not_open
  | cons t ts =>
    cases us with
    | nil =>
      rw [List.map_cons, toList_brackets_cons] at h
      exact absurd h.symm hss.not_open
    | cons u us =>
      simp only [List.map_cons, toList_brackets_cons, List.cons_append, List.append_assoc,
        List.cons.injEq, true_and] at h
      exact parts_append_inj (hcompact t (.head _) u (.head _))
        (closing_append_inj fun t ht u hu => hcompact t (.tail _ ht) u (.tail _ hu)) h

theorem writtenApart (ht : AllPlain unbracketed depth t) (hu : AllPlain unbracketed depth u) :
    WrittenApart depth t u := by
  intro rs ss hrs hss h
  induction depth generalizing t u rs ss with
  | zero =>
    rw [compact_zero, compact_zero] at h
    obtain ⟨htext, hrest⟩ := plain_append_inj ht.root hu.root hrs.not_plain hss.not_plain h
    have htext := String.toList_inj.1 htext
    exact ⟨Rose.ext (by simpa using htext) (by simp), hrest⟩
  | succ depth ih =>
    simp only [compact_succ, String.toList_append, List.append_assoc] at h
    obtain ⟨htext, hrow⟩ := plain_append_inj ht.root hu.root (brackets_not_plain _ hrs)
      (brackets_not_plain _ hss) h
    have htext := String.toList_inj.1 htext
    obtain ⟨hchildren, hrest⟩ := brackets_append_inj
      (fun t' ht' u' hu' => ih (ht.child t' ht') (hu.child u' hu')) hrs hss hrow
    exact ⟨Rose.ext (by simpa using htext) (by simpa using hchildren), hrest⟩

/-- A text shows values line by line, each at the end of a line of its own. -/
def ShowsLines (text : String) (vs : List α) : Prop :=
  ∃ lines, IsLines text lines ∧
    List.Forall₂ (fun line v => (display v).toList <:+ line.toList) lines vs

theorem ShowsLines.append {text text' : String} {vs vs' : List α} (h : ShowsLines text vs)
    (h' : ShowsLines text' vs') : ShowsLines (text ++ text') (vs ++ vs') := by
  obtain ⟨lines, hlines, hvs⟩ := h
  obtain ⟨lines', hlines', hvs'⟩ := h'
  exact ⟨lines ++ lines', hlines.append hlines', List.rel_append hvs hvs'⟩

theorem showsLines_line {margin : String} (hmargin : '\n' ∉ margin.toList) (isLast : Bool) {v : α}
    (hv : '\n' ∉ (display v).toList) :
    ShowsLines (line margin isLast (display v) ++ "\n") [v] := by
  refine ⟨_, isLines_single ?_, .cons ?_ .nil⟩
  · rw [line, String.toList_append, String.toList_append, toList_mark]
    cases isLast <;> simp [hmargin, hv]
  · rw [line, String.toList_append]
    exact List.suffix_append ..

theorem showsLines_drawRow {margin : String} {ts : List (Tree α)}
    (hdraw : ∀ t ∈ ts, ∀ isLast, ShowsLines (draw depth margin isLast t) (t.expand depth)) :
    ShowsLines (drawRow (draw depth margin) ts) (ts.flatMap (·.expand depth)) := by
  induction ts with
  | nil => exact ⟨[], ⟨rfl, by simp⟩, .nil⟩
  | cons t ts ih =>
    rw [List.flatMap_cons]
    exact (hdraw t (.head _) _).append (ih fun u hu => hdraw u (.tail _ hu))

/-- A drawing has a line for each value, in depth-first order. -/
theorem showsLines_draw {margin : String} (hmargin : '\n' ∉ margin.toList) (isLast : Bool)
    (ht : AllPlain unbroken depth t) :
    ShowsLines (draw depth margin isLast t) (t.expand depth) := by
  induction depth generalizing t margin isLast with
  | zero => exact showsLines_line hmargin isLast ht.not_mem_root
  | succ depth ih =>
    rw [draw_succ, expand_succ]
    refine (showsLines_line hmargin isLast ht.not_mem_root).append
      (showsLines_drawRow fun u hu isLast' => ih ?_ isLast' (ht.child u hu))
    rw [String.toList_append, toList_block]
    cases isLast <;> simp [hmargin]

theorem draw_map_display (depth : Nat) (margin : String) (isLast : Bool) (t : Tree α) :
    draw depth margin isLast (t.map display) = draw depth margin isLast t := by
  induction depth generalizing margin isLast t with
  | zero => rfl
  | succ depth ih =>
    rw [draw_succ, draw_succ, children_map, drawRow_map]
    simp only [ih]
    rfl

theorem compact_map_display (depth : Nat) (t : Tree α) :
    compact depth (t.map display) = compact depth t := by
  induction depth generalizing t with
  | zero => rfl
  | succ depth ih =>
    rw [compact_succ, compact_succ, children_map, List.map_map]
    simp only [Function.comp_def, ih]
    rfl

/-- Both drawings draw no more than what is shown. -/
theorem render_eq_draw_shown (t : Tree α) (depth : Nat) :
    t.render depth = draw depth "" true (shown depth t) := by
  rw [render_eq, ← draw_map_display]
  exact (draw_approx ..).symm

theorem renderCompact_eq_compact_shown (t : Tree α) (depth : Nat) :
    t.renderCompact depth = compact depth (shown depth t) := by
  rw [renderCompact_eq, ← compact_map_display]
  exact (renderCompact_eq ..).symm

theorem render_inj (ht : AllPlain unbroken depth t) (hu : AllPlain unbroken depth u) :
    t.render depth = u.render depth ↔ shown depth t = shown depth u := by
  constructor
  · intro h
    have hend : ¬ ("" ++ block true).toList <+: [] := by simp [toList_block]
    rw [render_eq, render_eq] at h
    exact (drawnApart "" ht hu hend hend (by rw [h])).1
  · intro h
    rw [render_eq_draw_shown, render_eq_draw_shown, h]

theorem renderCompact_inj (ht : AllPlain unbracketed depth t) (hu : AllPlain unbracketed depth u) :
    t.renderCompact depth = u.renderCompact depth ↔ shown depth t = shown depth u := by
  constructor
  · intro h
    have hend : Follows [] := by simp [Follows]
    rw [renderCompact_eq, renderCompact_eq] at h
    exact (writtenApart ht hu hend hend (by rw [h])).1
  · intro h
    rw [renderCompact_eq_compact_shown, renderCompact_eq_compact_shown, h]

/-- Drawings lose nothing. As many values are met down to a depth as nodes are
counted. If no text of a tree has a line break, then its drawing has that many
lines, and the lines end with the texts of the values in the order in which these
are met; and trees of that kind are drawn alike only if they show the same texts in
the same places. The same is true of trees in brackets, if no text has a bracket or
a comma. -/
theorem drawings_lose_nothing (t : Tree α) (u : Tree β) (depth : Nat) :
    (t.expand depth).length = t.count depth ∧
    (AllPlain unbroken depth t →
      (∃ lines, IsLines (t.render depth) lines ∧ lines.length = t.count depth ∧
        ∀ (i : Nat) line v, lines[i]? = some line → (t.expand depth)[i]? = some v →
          (display v).toList <:+ line.toList) ∧
      (AllPlain unbroken depth u →
        (t.render depth = u.render depth ↔ shown depth t = shown depth u))) ∧
    (AllPlain unbracketed depth t → AllPlain unbracketed depth u →
      (t.renderCompact depth = u.renderCompact depth ↔ shown depth t = shown depth u)) := by
  refine ⟨length_expand_eq_count t depth, fun ht => ⟨?_, render_inj ht⟩, renderCompact_inj⟩
  have hmargin : '\n' ∉ "".toList := by simp
  obtain ⟨lines, hlines, hvs⟩ := showsLines_draw hmargin true ht
  rw [← render_eq] at hlines
  refine ⟨lines, hlines, hvs.length_eq.trans (length_expand_eq_count t depth), ?_⟩
  intro i line v hline hv
  obtain ⟨hi, rfl⟩ := List.getElem?_eq_some_iff.1 hline
  obtain ⟨hi', rfl⟩ := List.getElem?_eq_some_iff.1 hv
  exact hvs.get hi hi'

/-- A text that looks like a drawing is told apart from the drawing of a tree. -/
theorem drawings_lose_nothing_lookalike :
    let t : Tree String := node "a" [node "├── b" [leaf ""], leaf "    └── c"]
    let u : Tree String := node "a" [leaf "├── b", node "" [leaf "c"]]
    AllPlain unbroken 2 t ∧ AllPlain unbroken 2 u ∧ AllPlain unbracketed 2 t ∧
      AllPlain unbracketed 2 u ∧
      (∃ lines, IsLines (t.render 2) lines ∧ lines.length = 4 ∧
        ∀ line, lines[3]? = some line → "    └── c".toList <:+ line.toList) ∧
      t.render 2 ≠ u.render 2 ∧ t.renderCompact 2 ≠ u.renderCompact 2 := by
  intro t u
  have hvs : t.expand 2 = ["a", "├── b", "", "    └── c"] := by simp [t]
  have hvs' : u.expand 2 = ["a", "├── b", "", "c"] := by simp [u]
  have ht : AllPlain unbroken 2 t ∧ AllPlain unbracketed 2 t := by
    simp only [AllPlain, hvs, ← List.all_eq_true]
    decide
  have hu : AllPlain unbroken 2 u ∧ AllPlain unbracketed 2 u := by
    simp only [AllPlain, hvs', ← List.all_eq_true]
    decide
  -- The first child has a child in one tree only.
  have hne : shown 2 t ≠ shown 2 u := by
    intro h
    have hchildren := congrArg (fun r => r.children.map (·.children.length)) h
    simp [t, u] at hchildren
  obtain ⟨hcount, hdrawn, hcompact⟩ := drawings_lose_nothing t u 2
  obtain ⟨⟨lines, hlines, hlength, hends⟩, hinj⟩ := hdrawn ht.1
  rw [← hcount, hvs] at hlength
  refine ⟨ht.1, hu.1, ht.2, hu.2, ⟨lines, hlines, hlength, fun line hline => ?_⟩,
    mt (hinj hu.1).1 hne, mt (hcompact ht.2 hu.2).1 hne⟩
  exact hends 3 line _ hline (by rw [hvs]; rfl)

end Tree

end PropertyTesting
