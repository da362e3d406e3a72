import GraphRules.Script.Parse
import Mathlib.Data.List.Basic

/-! The grammar of scripts as parsing expressions. An expression matches a stretch of text or fails,
and choices are ordered. Outside tokens, blanks and comments are passed between the parts of a
sequence and between repetitions. A named rule that matches leaves a node of the syntax tree. -/
namespace GraphRules.Grammar

structure Spot where
  rest : List Char
  place : Place := {}

namespace Spot

def advance (p : Spot) (n : Nat) : Spot := ⟨p.rest.drop n, (p.rest.take n).foldl Place.next p.place⟩

def upTo (p q : Spot) : String := String.ofList (p.rest.take (p.rest.length - q.rest.length))

end Spot

inductive Rule where
  | script | statement | catchAll | goal
  | kwNode | kwEdge | kwLabels | kwQuery | kwNot | kwAs
  | labelDecl | labelKind | label | queryDecl | ruleDecl | consequence
  | formula | conjunction | literal | negation | group | comparison | compareOp | predicate
  | term | float | integer | string | stringInner | wildcard | var | ident | identChar
  | whitespace | comment | eoi
  deriving DecidableEq

inductive Expr where
  | text (s : String)
  | one (p : Char → Bool)
  /-- The start of the text. -/
  | start
  /-- The end of the text. -/
  | stop
  | call (r : Rule)
  | seq (a b : Expr)
  | choice (a b : Expr)
  | opt (a : Expr)
  | star (a : Expr)
  /-- What follows the first repetition. -/
  | again (a : Expr)
  /-- The expression matches here, or does not; nothing is taken. -/
  | present (a : Expr)
  | absent (a : Expr)

namespace Expr

def any : Expr := one fun _ => true

def plus (a : Expr) : Expr := seq a (star a)

def digit : Expr := one Char.isDigit

def newline : Expr := choice (text "\n") (choice (text "\r\n") (text "\r"))

def list (a : Expr) (separator : String) : Expr := seq a (star (seq (text separator) a))

def word (s : String) : Expr := seq (text s) (absent (call .identChar))

def gap : Expr :=
  seq (star (call .whitespace)) (star (seq (call .comment) (star (call .whitespace))))

end Expr

/-- How a rule is matched: its name may be left out of the tree, it may be matched as a token, with
or without nodes inside, or it may stand for what is passed between parts. -/
inductive Kind where
  | plain | silent | atomic | compound | trivia
  deriving DecidableEq

inductive Mode where
  | free | atomic | compound
  deriving DecidableEq

namespace Mode

def gap : Mode → Expr
  | free => Expr.gap
  | _ => .text ""

end Mode

namespace Kind

def within : Kind → Mode → Mode
  | plain, m => m
  | silent, m => m
  | atomic, _ => .atomic
  | compound, _ => .compound
  | trivia, _ => .atomic

def leaves : Kind → Mode → Bool
  | plain, m => m ≠ .atomic
  | atomic, m => m ≠ .atomic
  | compound, _ => true
  | silent, _ => false
  | trivia, _ => false

end Kind

namespace Rule

open GraphRules.Grammar.Expr

def kind : Rule → Kind
  | statement => .silent
  | literal => .silent
  | term => .silent
  | identChar => .silent
  | whitespace => .trivia
  | comment => .trivia
  | catchAll => .atomic
  | kwNode => .atomic
  | kwEdge => .atomic
  | kwLabels => .atomic
  | kwQuery => .atomic
  | kwNot => .atomic
  | kwAs => .atomic
  | float => .atomic
  | integer => .atomic
  | string => .compound
  | stringInner => .atomic
  | wildcard => .atomic
  | var => .atomic
  | ident => .atomic
  | _ => .plain

def body : Rule → Expr
  | whitespace => choice (text " ") (choice (text "\t") (choice (text "\r") (text "\n")))
  | comment => choice (seq (choice (text "%") (text "//")) (star (seq (absent newline) any)))
      (seq (text "/*") (seq (star (seq (absent (text "*/")) any)) (text "*/")))
  | script => seq start (seq (star (call statement)) (call eoi))
  | statement =>
    choice (call labelDecl) (choice (call queryDecl) (choice (call ruleDecl) (call catchAll)))
  | catchAll =>
    choice (seq (plus (choice (call string) (choice (call float) (seq (absent (text ".")) any))))
      (choice (text ".") (present (call eoi)))) (text ".")
  | goal => seq start (seq (call formula) (seq (opt (text ".")) (call eoi)))
  | kwNode => word "node"
  | kwEdge => word "edge"
  | kwLabels => word "labels"
  | kwQuery => word "query"
  | kwNot => word "not"
  | kwAs => word "as"
  | labelDecl =>
    seq (call labelKind)
      (seq (call kwLabels) (seq (text ":") (seq (list (call label) ",") (text "."))))
  | labelKind => choice (call kwNode) (call kwEdge)
  | label => seq (choice (call ident) (call string)) (opt (seq (call kwAs) (call ident)))
  | queryDecl =>
    seq (call kwQuery) (seq (call ident) (seq (text ":") (seq (call formula) (text "."))))
  | ruleDecl => seq (opt (seq (call formula) (text "->"))) (seq (call consequence) (text "."))
  | consequence => list (call predicate) ","
  | formula => list (call conjunction) ";"
  | conjunction => list (call literal) ","
  | literal =>
    choice (call negation) (choice (call comparison) (choice (call group) (call predicate)))
  | negation => seq (call kwNot) (choice (call group) (call predicate))
  | group => seq (text "(") (seq (call formula) (text ")"))
  | comparison => seq (call term) (seq (call compareOp) (call term))
  | compareOp => choice (text "==") (choice (text "!=") (choice (text "<=") (choice (text ">=")
      (choice (text "<") (text ">")))))
  | predicate =>
    seq (call ident) (opt (seq (text "(") (seq (opt (list (call term) ",")) (text ")"))))
  | term => choice (call float) (choice (call integer) (choice (call string) (choice (call wildcard)
      (choice (call var) (call ident)))))
  | float => seq (opt (text "-")) (seq (plus digit) (seq (text ".") (plus digit)))
  | integer => seq (opt (text "-")) (plus digit)
  | string => seq (text "\"") (seq (call stringInner) (text "\""))
  | stringInner =>
    star (choice (seq (absent (choice (text "\"") (text "\\"))) any) (seq (text "\\") any))
  | wildcard => seq (text "_") (absent (call identChar))
  | var => seq (choice (one Char.isUpper) (text "_")) (star (call identChar))
  | ident => seq (one Char.isLower) (star (call identChar))
  | identChar => choice (one Char.isAlphanum) (text "_")
  | eoi => stop

end Rule

/-- A node of the syntax tree: a rule, the text it has matched and where, and the nodes inside. -/
inductive Pair where
  | mk (rule : Rule) (text : String) (span : Span) (inner : List Pair)

def Rule.close (r : Rule) (m : Mode) (p : Spot) (x : Spot × List Pair) : Spot × List Pair :=
  if r.kind.leaves m then (x.1, [.mk r (p.upTo x.1) (.between p.place x.1.place) x.2]) else x

/-- Whether an expression matches at a spot, and how: the spot after it and the nodes it leaves, or
a failure. -/
inductive Matches : Mode → Expr → Spot → Option (Spot × List Pair) → Prop
  | text_hit {m s p} : s.toList <+: p.rest → Matches m (.text s) p (some (p.advance s.length, []))
  | text_miss {m s p} : ¬ s.toList <+: p.rest → Matches m (.text s) p none
  | one_hit {m f p} {c cs} : p.rest = c :: cs → f c → Matches m (.one f) p (some (p.advance 1, []))
  | one_miss {m f p} : (∀ c ∈ p.rest.head?, f c = false) → Matches m (.one f) p none
  | start_hit {m p} : p.place.offset = 0 → Matches m .start p (some (p, []))
  | start_miss {m p} : p.place.offset ≠ 0 → Matches m .start p none
  | stop_hit {m p} : p.rest = [] → Matches m .stop p (some (p, []))
  | stop_miss {m p} : p.rest ≠ [] → Matches m .stop p none
  | call {m r p o} :
    Matches (r.kind.within m) r.body p o → Matches m (.call r) p (o.map (r.close m p))
  | seq_miss {m a b p} : Matches m a p none → Matches m (.seq a b) p none
  | seq {m a b p q p' xs gs o} :
    Matches m a p (some (q, xs)) → Matches .atomic m.gap q (some (p', gs)) → Matches m b p' o →
      Matches m (.seq a b) p (o.map fun y => (y.1, xs ++ gs ++ y.2))
  | choice_left {m a b p x} : Matches m a p (some x) → Matches m (.choice a b) p (some x)
  | choice_right {m a b p o} : Matches m a p none → Matches m b p o → Matches m (.choice a b) p o
  | opt_hit {m a p x} : Matches m a p (some x) → Matches m (.opt a) p (some x)
  | opt_miss {m a p} : Matches m a p none → Matches m (.opt a) p (some (p, []))
  | star_stop {m a p} : Matches m a p none → Matches m (.star a) p (some (p, []))
  | star_more {m a p q r xs ys} :
    Matches m a p (some (q, xs)) → Matches m (.again a) q (some (r, ys)) →
      Matches m (.star a) p (some (r, xs ++ ys))
  | again_stop {m a p q gs} : Matches .atomic m.gap p (some (q, gs)) → Matches m a q none →
      Matches m (.again a) p (some (p, []))
  | again_more {m a p q r t gs xs ys} :
    Matches .atomic m.gap p (some (q, gs)) → Matches m a q (some (r, xs)) →
      Matches m (.again a) r (some (t, ys)) → Matches m (.again a) p (some (t, gs ++ xs ++ ys))
  | present_hit {m a p x} : Matches m a p (some x) → Matches m (.present a) p (some (p, []))
  | present_miss {m a p} : Matches m a p none → Matches m (.present a) p none
  | absent_hit {m a p} : Matches m a p none → Matches m (.absent a) p (some (p, []))
  | absent_miss {m a p x} : Matches m a p (some x) → Matches m (.absent a) p none

/-- An expression matches in one way at most. -/
theorem Matches.deterministic {m : Mode} {e : Expr} {p : Spot} {o o' : Option (Spot × List Pair)}
    (h : Matches m e p o) (h' : Matches m e p o') : o' = o := by
  induction h generalizing o' with
  | text_hit hs => cases h' with
    | text_hit => rfl
    | text_miss hs' => exact (hs' hs).elim
  | text_miss hs => cases h' with
    | text_hit hs' => exact (hs hs').elim
    | text_miss => rfl
  | one_hit hrest hf => cases h' with
    | one_hit => rfl
    | one_miss hnone =>
      have hc := hnone _ (by rw [hrest]; rfl)
      simp [hf] at hc
  | one_miss hnone => cases h' with
    | one_hit hrest hf =>
      have hc := hnone _ (by rw [hrest]; rfl)
      simp [hf] at hc
    | one_miss => rfl
  | start_hit hp => cases h' with
    | start_hit => rfl
    | start_miss hp' => exact (hp' hp).elim
  | start_miss hp => cases h' with
    | start_hit hp' => exact (hp hp').elim
    | start_miss => rfl
  | stop_hit hp => cases h' with
    | stop_hit => rfl
    | stop_miss hp' => exact (hp' hp).elim
  | stop_miss hp => cases h' with
    | stop_hit hp' => exact (hp hp').elim
    | stop_miss => rfl
  | call _ ih => cases h' with
    | call hbody => rw [ih hbody]
  | seq_miss _ ih => cases h' with
    | seq_miss => rfl
    | seq ha _ _ => cases ih ha
  | seq _ _ _ iha ihgap ihb => cases h' with
    | seq_miss ha => cases iha ha
    | seq ha hgap hb =>
      cases iha ha
      cases ihgap hgap
      rw [ihb hb]
  | choice_left _ ih => cases h' with
    | choice_left ha => exact ih ha
    | choice_right ha _ => cases ih ha
  | choice_right _ _ iha ihb => cases h' with
    | choice_left ha => cases iha ha
    | choice_right _ hb => exact ihb hb
  | opt_hit _ ih => cases h' with
    | opt_hit ha => exact ih ha
    | opt_miss ha => cases ih ha
  | opt_miss _ ih => cases h' with
    | opt_hit ha => cases ih ha
    | opt_miss => rfl
  | star_stop _ ih => cases h' with
    | star_stop => rfl
    | star_more ha _ => cases ih ha
  | star_more _ _ iha ihmore => cases h' with
    | star_stop ha => cases iha ha
    | star_more ha hmore =>
      cases iha ha
      cases ihmore hmore
      rfl
  | again_stop _ _ ihgap iha => cases h' with
    | again_stop => rfl
    | again_more hgap ha _ =>
      cases ihgap hgap
      cases iha ha
  | again_more _ _ _ ihgap iha ihmore => cases h' with
    | again_stop hgap ha =>
      cases ihgap hgap
      cases iha ha
    | again_more hgap ha hmore =>
      cases ihgap hgap
      cases iha ha
      cases ihmore hmore
      rfl
  | present_hit _ ih => cases h' with
    | present_hit => rfl
    | present_miss ha => cases ih ha
  | present_miss _ ih => cases h' with
    | present_hit ha => cases ih ha
    | present_miss => rfl
  | absent_hit _ ih => cases h' with
    | absent_hit => rfl
    | absent_miss ha => cases ih ha
  | absent_miss _ ih => cases h' with
    | absent_hit ha => cases ih ha
    | absent_miss => rfl

end GraphRules.Grammar
