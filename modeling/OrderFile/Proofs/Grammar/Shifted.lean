import OrderFile.Proofs.Grammar.Reread
import OrderFile.Proofs.Token.Shifted

/-!
Trees of tokens that are moved down. The rules of order files never ask for the line of a token, so
the lines of a token list that is moved down are read off as the trees of the list itself, moved
down: `linesFront?_shift`.
-/

set_option autoImplicit false

namespace OrderFile

namespace Tree

mutual

/-- The tree with its tokens moved down by a number of lines. -/
def shift (n : UInt32) : Tree → Tree
  | leaf t => leaf (t.shift n)
  | node rule children => node rule (shiftAll n children)

def shiftAll (n : UInt32) : List Tree → List Tree
  | [] => []
  | tree :: trees => tree.shift n :: shiftAll n trees

end

mutual

/-- Moving a tree down moves its tokens down. -/
theorem shift_eq_map (n : UInt32) : (tree : Tree) → tree.shift n = tree.map (Token.shift n)
  | leaf _ => rfl
  | node rule children => by rw [shift, map, shiftAll_eq_mapAll n children]

theorem shiftAll_eq_mapAll (n : UInt32) :
    (trees : List Tree) → shiftAll n trees = mapAll (Token.shift n) trees
  | [] => rfl
  | tree :: trees => by rw [shiftAll, mapAll, shift_eq_map n tree, shiftAll_eq_mapAll n trees]

end

end Tree

namespace Grammar

/-- What is read off the front of a token list that is moved down. -/
def shiftRead (n : UInt32) (read : List Tree × List Token) : List Tree × List Token :=
  (read.1.map (Tree.shift n), read.2.map (Token.shift n))

/-- The lines of a token list that is moved down are its lines, moved down. -/
theorem linesFront?_shift {n : UInt32} (stop : Bool) (ts : List Token) :
    linesFront? stop (ts.map (Token.shift n)) = (linesFront? stop ts).map (shiftRead n) := by
  have hread : shiftRead n = mapRead (Token.shift n) := by
    funext read
    rw [shiftRead, mapRead, funext (Tree.shift_eq_map n)]
  rw [hread, linesFront?_map (Token.rewords_shift n)]

end Grammar

end OrderFile
