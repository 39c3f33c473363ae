namespace LineCode

inductive Operator where
  | add | sub | mul | div | equal | notEqual | less | greater
  deriving DecidableEq

namespace Operator

def symbol : Operator → String
  | add      => "+"
  | sub      => "-"
  | mul      => "*"
  | div      => "/"
  | equal    => "=="
  | notEqual => "!="
  | less     => "<"
  | greater  => ">"

def mnemonic : Operator → String
  | add      => "ADD"
  | sub      => "SUB"
  | mul      => "MUL"
  | div      => "DIV"
  | equal    => "CMPE"
  | notEqual => "CMPNE"
  | less     => "CMPL"
  | greater  => "CMPG"

def ofSymbol? : String → Option Operator
  | "+"  => some add
  | "-"  => some sub
  | "*"  => some mul
  | "/"  => some div
  | "==" => some equal
  | "!=" => some notEqual
  | "<"  => some less
  | ">"  => some greater
  | _    => none

def ofMnemonic? : String → Option Operator
  | "ADD"   => some add
  | "SUB"   => some sub
  | "MUL"   => some mul
  | "DIV"   => some div
  | "CMPE"  => some equal
  | "CMPNE" => some notEqual
  | "CMPL"  => some less
  | "CMPG"  => some greater
  | _       => none

theorem ofSymbol?_eq_some_iff {s : String} {op : Operator} :
    ofSymbol? s = some op ↔ s = op.symbol where
  mp h := by
    unfold ofSymbol? at h
    split at h <;> first | contradiction | (injection h with h; subst h; rfl)
  mpr h := by subst h; cases op <;> rfl

theorem ofMnemonic?_eq_some_iff {s : String} {op : Operator} :
    ofMnemonic? s = some op ↔ s = op.mnemonic where
  mp h := by
    unfold ofMnemonic? at h
    split at h <;> first | contradiction | (injection h with h; subst h; rfl)
  mpr h := by subst h; cases op <;> rfl

@[simp]
theorem ofSymbol?_symbol (op : Operator) : ofSymbol? op.symbol = some op :=
  ofSymbol?_eq_some_iff.mpr rfl

@[simp]
theorem ofMnemonic?_mnemonic (op : Operator) : ofMnemonic? op.mnemonic = some op :=
  ofMnemonic?_eq_some_iff.mpr rfl

end Operator
end LineCode
