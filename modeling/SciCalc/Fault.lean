import SciCalc.Token

/-!
# Faults

What can go wrong in a calculation. A fault is malformed input, an operand outside the domain of a
counting function, or a value that is no finite number. All are reported but one: where a sum leaves
the machine word, the calculation breaks off or never ends. `Fault.message` alone holds the wording.
-/

set_option autoImplicit false

namespace SciCalc

/-- Where a value comes from, for the faults that name it. -/
inductive Origin where
  | literal
  | operator (op : Operator)
  | function (f : MathFunction)
  /-- The reciprocal key. -/
  | reciprocal
  /-- The root key. -/
  | root
deriving DecidableEq, Repr

/-- The name of an origin. -/
def Origin.name : Origin → String
  | literal => "littéral"
  | operator .add => "addition"
  | operator .subtract => "soustraction"
  | operator .multiply => "multiplication"
  | operator .divide => "division"
  | operator .raise => "puissance"
  | function f => f.name
  | reciprocal => "inverse"
  | root => "x√y"

/-- How input can be malformed. -/
inductive Malformation where
  | emptyInput
  /-- A function name is not followed by its bracket. -/
  | bracketMissing (f : MathFunction)
  /-- Two operands stand side by side. -/
  | operatorMissing (before : Token)
  /-- An operator, a comma or a closing bracket lacks the operand before it. -/
  | operandMissing (before : Token)
  | commaOutsideCall
  | surplusClosing
  | wrongArity (f : MathFunction) (received : Nat)
  /-- A mark stands where it has no literal operand. -/
  | strayMark (mark : Token)
  /-- A token of the postfix form stands in an infix one. -/
  | internalToken
  | unknownText (text : String)
  /-- The input ends after a function name. -/
  | argumentsMissing (f : MathFunction)
  | incomplete
  | unclosed
  /-- The postfix form lacks an operand or has one too many. -/
  | invalidPostfix
  /-- A token that no postfix form has. -/
  | notPostfix (token : Token)
  /-- A call has fewer arguments than its function needs. -/
  | argumentMissing (f : MathFunction)
  /-- The evaluation finds no value for an operator. -/
  | valueMissing
  /-- The evaluation is to combine the operands of a leaf. -/
  | unexpectedLeaf
  /-- The text for the root key is no pair of numbers. -/
  | notPair (text : String)
deriving DecidableEq

/-- How an operand can lie outside the domain of a counting function. -/
inductive DomainFault where
  | notNatural (f : MathFunction) (operand : Float)
  /-- More items are chosen than there are; `difference` is the negative remainder. -/
  | tooManyChosen (f : MathFunction) (difference : Float)
deriving DecidableEq

/-- How a value can fail to be a finite number. -/
inductive NumericFault where
  | indeterminate (origin : Origin)
  | overflow (origin : Origin)
  | operandTooLarge (f : MathFunction)
  | divisionByZero
  | zeroToNegativePower
  | zeroRootIndex
  /-- A sum of operands leaves the machine word, and nothing is reported: the calculation breaks off
  there, or never ends. -/
  | wordOverflow
deriving DecidableEq

/-- A fault of a calculation. -/
inductive Fault where
  | malformed (cause : Malformation)
  | outOfDomain (cause : DomainFault)
  | numeric (cause : NumericFault)
deriving DecidableEq

/-- The wording of a malformation. -/
def Malformation.message : Malformation → String
  | emptyInput => "entrée vide"
  | bracketMissing f => f.name ++ " doit être suivie de '('"
  | operatorMissing .opening => "opérateur manquant avant '('"
  | operatorMissing t => "opérateur manquant avant " ++ t.text
  | operandMissing t => "opérande manquante avant '" ++ t.text ++ "'"
  | commaOutsideCall => "',' hors d’un appel de fonction"
  | surplusClosing => "parenthèse fermante en trop"
  | wrongArity f n =>
    f.name ++ " attend " ++ toString f.arity ++ " argument(s), reçu " ++ toString n
  | strayMark t => "'" ++ t.text ++ "' attend une opérande littérale"
  | internalToken => "jeton interne inattendu"
  | unknownText s => "jeton inconnu : " ++ s
  | argumentsMissing f => f.name ++ " sans argument"
  | incomplete => "expression incomplète"
  | unclosed => "parenthèses non fermées"
  | invalidPostfix => "expression invalide"
  | notPostfix t => "jeton inattendu en RPN : " ++ t.text
  | argumentMissing f => f.name ++ " : argument manquant"
  | valueMissing => "opérande manquante"
  | unexpectedLeaf => "feuille inattendue"
  | notPair s => "x√y attend « x,y », reçu « " ++ s ++ " »"

/-- The wording of a domain fault. -/
def DomainFault.message : DomainFault → String
  | notNatural f x => f.name ++ " : " ++ Number.text x ++ " n’est pas un entier naturel"
  | tooManyChosen f d => f.name ++ " : factorial(" ++ Number.text d ++ ") n’existe pas (r > n)"

/-- The wording of a numeric fault. -/
def NumericFault.message : NumericFault → String
  | indeterminate o => o.name ++ " : forme indéterminée"
  | overflow o => o.name ++ " : dépassement"
  | operandTooLarge f => f.name ++ " : opérande trop grande"
  | divisionByZero => "division par zéro"
  | zeroToNegativePower => "division par zéro (0 à une puissance négative)"
  | zeroRootIndex => "x√y : indice nul (exposant 1/0)"
  | wordOverflow => "attempt to add with overflow"

/-- The full text of a fault: its family, then its wording. What breaks off belongs to no family. -/
def Fault.message : Fault → String
  | malformed c => "erreur de syntaxe : " ++ c.message
  | outOfDomain c => "hors domaine : " ++ c.message
  | numeric .wordOverflow => NumericFault.wordOverflow.message
  | numeric c => "erreur numérique : " ++ c.message

/-- A value that must be a finite number, or the fault that says what it is instead. -/
def finite (origin : Origin) (v : Float) : Except Fault Float :=
  if v.isNaN then .error (.numeric (.indeterminate origin))
  else if v.isInf then .error (.numeric (.overflow origin))
  else .ok v

end SciCalc
