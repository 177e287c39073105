/-!
# Powers of numbers

Powers of natural numbers and of integers are the core library's own, also where another library
that defines powers is loaded. So whatever counts in powers of two or ten means the same with and
without that library.
-/

attribute [instance (20000)] instPowNat
attribute [default_instance (20000)] instPowNat
