import OfsConvert.AllocatorCompleteness
import OfsConvert.ChainRuns
import OfsConvert.CorruptVolumes
import OfsConvert.StreamRoundTrip
import OfsConvert.DirectoryScan
import OfsConvert.FatGrammar
import OfsConvert.MetaExtents
import OfsConvert.FreeTotals
import OfsConvert.LongNames
import OfsConvert.ShortNames
import OfsConvert.VolumeLabel
import OfsConvert.GeometryArithmetic
import OfsConvert.BitmapFill
import OfsConvert.Conversion
import OfsConvert.ExtentTreeLaw
import OfsConvert.LostFoundAttaching
import OfsConvert.Lib.Bitmap
import OfsConvert.WholeRuns
