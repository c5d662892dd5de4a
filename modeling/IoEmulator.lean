import IoEmulator.Foundation.FirstWinsMap
import IoEmulator.Foundation.Words
import IoEmulator.Foundation.Enumeration
import IoEmulator.Foundation.InterruptibleLoop
import IoEmulator.Foundation.StepRuns
import IoEmulator.Foundation.KeyedLog
import IoEmulator.Foundation.FixedPoint
import IoEmulator.Foundation.Unwinding
import IoEmulator.Foundation.KeyedEdits
import IoEmulator.Foundation.Fields
import IoEmulator.Numerals
import IoEmulator.Conf.ReloadRuns
import IoEmulator.Conf.Construction
import IoEmulator.Conf.Acceptance
import IoEmulator.Conf.DriverReferences
import IoEmulator.Conf.SectionOrder
import IoEmulator.Conf.DocumentOwnership
import IoEmulator.Conf.LoadErrors
import IoEmulator.Conf.DocumentEdits
import IoEmulator.Termctl.CompletionRequests
import IoEmulator.Termctl.ScriptExecution
import IoEmulator.Termctl.GeneratorSessions
import IoEmulator.Termctl.CommandWord
import IoEmulator.Termctl.EditedSessions
import IoEmulator.CtfIo.StoreSemantics
import IoEmulator.CtfIo.CompletionDrift
import IoEmulator.CtfIo.Addressability
import IoEmulator.CtfIo.Program
import IoEmulator.CtfIo.IoCalls
import IoEmulator.CtfIo.IntegerInjection
import IoEmulator.CtfIo.Arguments
import IoEmulator.CtfIo.InfoListing
import IoEmulator.CtfIo.ShowAndInject
import IoEmulator.CtfIo.VariantNames
import IoEmulator.CtfIo.LayerSimulation
import IoEmulator.CtfIo.AuditTrail
import IoEmulator.CtfIo.Slicing
import IoEmulator.CtfIo.Authority
import IoEmulator.CtfIo.CopyBack
import IoEmulator.CtfIo.Main
import IoEmulator.CtfIo.PromptCompletion
import IoEmulator.CtfIo.ConfigurationEquivalence
